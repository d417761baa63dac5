import TemplateSqueeze.Proofs.Edit.Joint
import TemplateSqueeze.Proofs.SourceMap.Lookup
import TemplateSqueeze.Proofs.Template.Faithful

namespace TemplateSqueeze.SourceMap

open Text Template Segment

def Change.ofSegment (source : Text) (s : Segment) : Change where
  input := .ofText source
  output := .ofText s.text
  inputSize := source.size
  origins := s.origins

theorem Change.ofEdits_eq_ofSegment {source : Text} {edits : List Edit} {s : Segment}
    (h : Edit.spliceOrigins source.size edits = s.origins) :
    Change.ofEdits source s.text edits = .ofSegment source s := by
  rw [Change.ofEdits, h, Change.ofSegment,
    List.take_of_length_le (Nat.le_of_eq (length_origins s))]

variable {source : Text} {s pre mid post : Segment} {g : Glyph} {a b i : Nat}

theorem text_after_return {x q : Text} (hx : source = x ++ '\r' :: q)
    (hq : q = [] ∨ ∃ r, q = '\n' :: r) (h : Faithful source (x.size + 1) source.size s) :
    s.text = [] ∨ ∃ r, s.text = '\n' :: r := by
  have hr : Char.utf8Size '\r' = 1 := by decide
  cases s with
  | nil => exact .inl rfl
  | cons g s =>
    obtain ⟨hle, hskip⟩ := h.maySkip
    obtain ⟨c, hc, hg⟩ := h.head
    have hlt := charAt?_lt_size hc
    have hpos := c.utf8Size_pos
    rcases hq with rfl | ⟨r, rfl⟩
    · rw [hx, size_append, size_cons, size_nil, hr] at hlt
      omega
    · have hfeed : source.charAt? (x.size + 1) = some '\n' :=
        charAt?_eq_some.2 ⟨x ++ ['\r'], r, by simp [hx], by simp [hr]⟩
      have hreturn : source.charBefore? (x.size + 1) = some '\r' :=
        charBefore?_eq_some.2 ⟨x, '\n' :: r, hx, by rw [hr]⟩
      have ho : g.offset = x.size + 1 := by
        rcases Nat.lt_or_eq_of_le hle with hlt' | he
        · exact absurd hreturn (hskip hlt' hfeed)
        · exact he.symm
      rw [ho, hfeed] at hc
      cases hc
      rcases hg with ⟨hg, -⟩ | ⟨hl, -⟩
      · rw [hg]
        exact .inr ⟨text s, rfl⟩
      · cases hl

theorem inContent_origin (h : Faithful source 0 source.size (pre ++ g :: post))
    (hc : (LineTable.ofText (text (pre ++ g :: post))).inContent (text pre).size) :
    (LineTable.ofText source).inContent g.offset := by
  obtain ⟨lo, -, h⟩ := h.exists_split
  obtain ⟨d, hd, hg⟩ := h.head
  obtain ⟨p, x, y, q, -, hy, hout⟩ := Text.exists_isSpot (text pre) (text (g :: post))
  rw [← text_append] at hout
  rw [LineTable.inContent_iff hout] at hc
  obtain ⟨c, y, rfl⟩ := List.exists_cons_of_ne_nil hc.1
  obtain ⟨rfl, hpost⟩ := List.cons.inj ((text_cons g post).symm.trans hy)
  have hline := hout.line.noFeed
  simp only [List.mem_append, List.mem_cons, not_or] at hline
  obtain ⟨e, r, he, ho⟩ := charAt?_eq_some.1 hd
  obtain ⟨p', x', y', q', -, hy', hin⟩ := Text.exists_isSpot e (d :: r)
  rw [← he, ho] at hin
  rw [LineTable.inContent_iff hin]
  constructor
  · rintro rfl
    -- Then the source has a line feed here, and so has the output.
    rcases hin.line.ends with rfl | ⟨r', rfl⟩
    · cases hy'
    · cases hy'
      rcases hg with ⟨hg, -⟩ | ⟨hl, -⟩
      · rw [hg] at hline
        exact hline.2.1 rfl
      · cases hl
  · rintro rfl
    obtain ⟨rfl, rfl⟩ := List.cons.inj hy'
    rcases hg with ⟨hg, ht⟩ | ⟨hl, -⟩
    · rw [← ho] at ht
      have hend := text_after_return he hin.line.ends ht
      rw [hpost] at hend
      rw [hg] at hc
      rcases hend with hend | ⟨r', hend⟩
      · exact hc.2 (by rw [(List.append_eq_nil_iff.1 hend).1]; rfl)
      · cases y with
        | nil => exact hc.2 rfl
        | cons c' y => exact hline.2.2 (by rw [(List.cons.inj hend).1]; simp)
    · cases hl

theorem width_of_startsLine {lo x : Nat} (h : Faithful source lo source.size (g :: post))
    (hstart : (LineTable.ofText (text (pre ++ g :: post))).startsLine
      ((text pre).size + g.char.utf8Size) = false)
    (hlast : g.origins[g.char.utf8Size - 1]? = some x) :
    ∃ d, source.charAt? g.offset = some d ∧ g.offset + g.char.utf8Size = x + 1 ∧
      d ≠ '\n' ∧ g.char ≠ '\n' ∧ g.char.utf8Size ≤ d.utf8Size ∧
      (d.utf8Size = g.char.utf8Size → unitsOf d = unitsOf g.char) := by
  obtain ⟨d, hd, hg⟩ := h.head
  have hpos := d.utf8Size_pos
  refine ⟨d, hd, ?_⟩
  rcases hg with ⟨hg, -⟩ | ⟨hl, hg, hascii, hl', -⟩
  · have hchar : g.char = d := by rw [hg]; rfl
    rw [hchar] at hstart hlast ⊢
    rw [hg, Glyph.origins, List.getElem?_range' (by omega), Option.some.injEq] at hlast
    have hfeed : d ≠ '\n' := by
      rintro rfl
      rw [text_append, text_cons, hchar] at hstart
      exact Bool.eq_false_iff.1 hstart (LineTable.startsLine_append_feed _ _)
    exact ⟨by omega, hfeed, hfeed, Nat.le_refl _, fun _ ↦ rfl⟩
  · have hone := utf8Size_eq_one_of_ascii hascii
    rw [hone, Nat.sub_self, hg, Glyph.origins, hone] at hlast
    cases hlast
    rw [hone]
    refine ⟨rfl, ?_, ?_, hpos, fun hone' ↦ ?_⟩
    · rintro rfl
      cases hl
    · intro hfeed
      rw [hfeed] at hl'
      cases hl'
    · rw [unitsOf_eq_one_of_ascii hascii, unitsOf_eq_one_of_utf8Size hone']

/-- Where the origins run on without a gap and no line starts, the source reads as wide as the
output and stays on its line. -/
theorem exists_run (h : Faithful source 0 source.size s) (hs : s = pre ++ (mid ++ g :: post))
    (hrun : ∀ i, (text pre).size < i → i ≤ (text pre).size + (text mid).size →
      (LineTable.ofText s.text).startsLine i = false ∧
        ∃ x, s.origins[i - 1]? = some x ∧ s.origins[i]? = some (x + 1)) :
    ∃ a m r : Text, source = a ++ (m ++ r) ∧ s.origins[(text pre).size]? = some a.size ∧
      g.offset = a.size + m.size ∧ m.size = (text mid).size ∧ units m = units (text mid) ∧
        '\n' ∉ m ∧ '\n' ∉ text mid := by
  induction mid generalizing pre with
  | nil =>
    rw [List.nil_append] at hs
    subst hs
    obtain ⟨lo, -, h'⟩ := h.exists_split
    obtain ⟨d, hd, -⟩ := h'.head
    obtain ⟨a, r, ha, ho⟩ := charAt?_eq_some.1 hd
    exact ⟨a, [], d :: r, ha, by rw [getElem?_origins_offset, ho], ho.symm, rfl, rfl,
      by simp, by simp [text]⟩
  | cons k mid ih =>
    have hk := k.char.utf8Size_pos
    have hsize : (text (k :: mid)).size = k.char.utf8Size + (text mid).size := rfl
    have hpre : (text (pre ++ [k])).size = (text pre).size + k.char.utf8Size := by
      rw [text_append, size_append]; rfl
    have hsk : s = (pre ++ [k]) ++ (mid ++ g :: post) := by simp [hs]
    obtain ⟨b, m, r, hb, hob, hg, hms, hmu, hmf, hmid⟩ :=
      ih hsk fun i hi hi' ↦ hrun i (by omega) (by omega)
    obtain ⟨hstart, x, hx, hx'⟩ := hrun ((text pre).size + k.char.utf8Size) (by omega) (by omega)
    rw [← hpre, hob, Option.some.injEq] at hx'
    rw [List.cons_append] at hs
    have hlast : k.origins[k.char.utf8Size - 1]? = some x := by
      rw [hs, Nat.add_sub_assoc hk, getElem?_origins (by omega)] at hx
      exact hx
    obtain ⟨lo, -, h'⟩ := (hs ▸ h).exists_split
    obtain ⟨d, hd, hcut, hfeed, hfeed', hle, hunits⟩ := width_of_startsLine h' (hs ▸ hstart) hlast
    -- The rest of the run begins where the glyph's origin ends.
    obtain ⟨a, ho, rfl⟩ := eq_append_of_charAt? hd hb (by omega) (by omega)
    have hend : (a ++ [d]).size = a.size + d.utf8Size := by rw [size_append]; rfl
    have hdk : d.utf8Size = k.char.utf8Size := by omega
    refine ⟨a, d :: m, r, by rw [hb]; simp, ?_, ?_, ?_, ?_, ?_, ?_⟩
    · rw [hs, getElem?_origins_offset, ho]
    · rw [hg, hend, size_cons, Nat.add_assoc]
    · rw [hsize, size_cons, hms, hdk]
    · rw [text_cons, units, units, hmu, hunits hdk]
    · simp only [List.mem_cons, not_or]
      exact ⟨fun h ↦ hfeed h.symm, hmf⟩
    · simp only [text_cons, List.mem_cons, not_or]
      exact ⟨fun h ↦ hfeed' h.symm, hmid⟩

theorem Change.mem_jointOrigins {c : Change} {o : Nat} : (i, o) ∈ c.jointOrigins ↔
    i ∈ joints c.output.startsLine c.origins ∧ c.origins[i]? = some o := by
  simp only [jointOrigins, List.mem_filterMap, List.getElem?_toArray, Option.map_eq_some_iff,
    Prod.mk.injEq]
  constructor
  · rintro ⟨k, hk, o', ho, rfl, rfl⟩
    exact ⟨hk, ho⟩
  · rintro ⟨hi, ho⟩
    exact ⟨i, hi, o, ho, rfl, rfl⟩

theorem isBoundary_of_mem_joints (h : Faithful source 0 source.size s)
    (hi : i ∈ joints (LineTable.ofText s.text).startsLine s.origins) : s.text.IsBoundary i := by
  obtain ⟨hlt, hi⟩ := mem_joints.1 hi
  obtain ⟨pre, g, post, k, rfl, rfl, hk⟩ := exists_glyph (by rwa [← length_origins])
  rcases hi with hi | hi | hi
  · exact ⟨[], text (pre ++ g :: post), rfl, hi.symm⟩
  · exact LineTable.isBoundary_of_startsLine hi
  · cases k with
    | zero => exact ⟨text pre, text (g :: post), text_append pre (g :: post), rfl⟩
    | succ k =>
      rw [← Nat.add_assoc, Nat.add_sub_cancel, Nat.add_assoc, getElem?_origins hk,
        getElem?_origins (by omega)] at hi
      cases g with
      | kept c o =>
        rw [Glyph.char] at hk
        rw [Glyph.origins, List.getElem?_range' (by omega), List.getElem?_range' hk] at hi
        exact absurd (by omega) (hi _ _ rfl rfl)
      | spelled c o =>
        obtain ⟨lo, -, h⟩ := h.exists_split
        cases h with
        | spelled _ hascii _ _ _ _ =>
          rw [Glyph.char, utf8Size_eq_one_of_ascii hascii] at hk
          omega

theorem isBoundary_of_origin {n : Nat} (h : Faithful source 0 source.size s)
    (hi : s.origins[i]? = some n) (hn : source.IsBoundary n) : s.text.IsBoundary i := by
  have hlt := (List.getElem?_eq_some_iff.1 hi).1
  obtain ⟨pre, g, post, k, rfl, rfl, hk⟩ := exists_glyph (by rwa [← length_origins])
  rw [getElem?_origins hk] at hi
  obtain ⟨lo, -, h⟩ := h.exists_split
  obtain rfl : k = 0 := by
    cases h with
    | @kept _ _ o c _ _ hc _ =>
      rw [Glyph.char] at hk
      rw [Glyph.origins, List.getElem?_range' hk, Option.some.injEq] at hi
      by_contra hpos
      obtain ⟨e, r, he, rfl⟩ := hn
      obtain ⟨e, ho, rfl⟩ := eq_append_of_charAt? hc he (by omega) (by omega)
      rw [size_append, size_cons, size_nil, ho] at hi
      omega
    | spelled _ hascii =>
      rw [Glyph.char, utf8Size_eq_one_of_ascii hascii] at hk
      omega
  exact ⟨text pre, text (g :: post), text_append pre (g :: post), rfl⟩

/-- From the joint `a` up to `b` the output is a copy of the source from `o` up to `n`. All of it
shows in one line, and so does what it copies. -/
structure Stretch (source : Text) (s : Segment) (a b o n : Nat) : Prop where
  joint : a ∈ joints (LineTable.ofText s.text).startsLine s.origins
  noJoint : ∀ k, a < k → k ≤ b → k ∉ joints (LineTable.ofText s.text).startsLine s.origins
  le : a ≤ b
  sum : a + n = b + o
  origins : ∀ k, a + k ≤ b → s.origins[a + k]? = some (o + k)
  boundaries : s.text.IsBoundary a ∧ s.text.IsBoundary b
  sourceBoundaries : source.IsBoundary o ∧ source.IsBoundary n
  contents : (LineTable.ofText s.text).inContent a ∧ (LineTable.ofText s.text).inContent b
  sourceContents : (LineTable.ofText source).inContent o ∧ (LineTable.ofText source).inContent n
  line : ((LineTable.ofText s.text).positionOf a).line =
    ((LineTable.ofText s.text).positionOf b).line
  sourceLine : ((LineTable.ofText source).positionOf o).line =
    ((LineTable.ofText source).positionOf n).line
  columns : ((LineTable.ofText source).positionOf o).column +
    ((LineTable.ofText s.text).positionOf b).column =
      ((LineTable.ofText source).positionOf n).column +
        ((LineTable.ofText s.text).positionOf a).column

/-- Every character that shows in the output lies on a stretch. -/
theorem exists_stretch (h : Faithful source 0 source.size s) (hb : s.text.IsBoundary b)
    (hc : (LineTable.ofText s.text).inContent b) :
    ∃ a o n, Stretch source s a b o n ∧ s.origins[b]? = some n := by
  obtain ⟨c, hc'⟩ := LineTable.exists_charAt?_of_inContent hb hc
  obtain ⟨pre, g, post, hs, rfl, -⟩ := exists_glyph_of_charAt? hc'
  have hlt : (text pre).size < s.origins.length := by
    have hpos := g.char.utf8Size_pos
    rw [length_origins, hs, text_append, size_append, text_cons, size_cons]
    omega
  -- From the last joint on the origins follow each other, and no line starts.
  obtain ⟨a, ha, hle, hk⟩ := exists_joint (LineTable.ofText s.text).startsLine hlt
  have hrun : ∀ i, a < i → i ≤ (text pre).size →
      (LineTable.ofText s.text).startsLine i = false ∧
        ∃ x, s.origins[i - 1]? = some x ∧ s.origins[i]? = some (x + 1) :=
    fun i hi hi' ↦ of_not_mem_joints (by omega) (hk i hi hi')
  have hsource := inContent_origin (hs ▸ h) (hs ▸ hc)
  have hn : s.origins[(text pre).size]? = some g.offset := by rw [hs, getElem?_origins_offset]
  obtain ⟨x, r, hx, rfl⟩ := isBoundary_of_mem_joints h ha
  obtain ⟨y, hy, -⟩ := exists_between (hx.symm.trans (by rw [hs, text_append])) hle
  obtain ⟨pre, mid, rfl, rfl, rfl⟩ := exists_split_of_text hy
  rw [List.append_assoc] at hs
  rw [text_append, size_append] at hrun hle hb hc hk hn ⊢
  obtain ⟨e, m, r, rfl, ho, hg, hms, hmu, hmf, hmid⟩ := exists_run h hs hrun
  rw [hg] at hsource hn
  have ht : s.text = text pre ++ (text mid ++ text (g :: post)) := by
    rw [hs, text_append, text_append]
  obtain ⟨hcontent, hline, hcolumn⟩ :=
    LineTable.positionOf_across (text pre) (text (g :: post)) hmid (ht ▸ hc)
  obtain ⟨hcontent', hline', hcolumn'⟩ := LineTable.positionOf_across e r hmf hsource
  rw [← ht] at hcontent hline hcolumn
  exact ⟨_, e.size, _, {
    joint := ha
    noJoint := hk
    le := hle
    sum := by omega
    origins := getElem?_origins_of_run ho fun i hi hi' ↦ (hrun i hi hi').2
    boundaries := ⟨⟨_, _, ht, rfl⟩, hb⟩
    sourceBoundaries := ⟨⟨_, _, rfl, rfl⟩, e ++ m, r, (List.append_assoc e m r).symm,
      size_append e m⟩
    contents := ⟨hcontent, hc⟩
    sourceContents := ⟨hcontent', hsource⟩
    line := hline
    sourceLine := hline'
    columns := by omega }, hn⟩

end TemplateSqueeze.SourceMap
