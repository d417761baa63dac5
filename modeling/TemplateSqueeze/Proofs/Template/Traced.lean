import TemplateSqueeze.Proofs.Template.Literal

namespace TemplateSqueeze

open Text

namespace Template

variable {marker source : Text} {guards : Nat → Prop} {lo mid hi o i x : Nat} {n t : Node}
  {l : Literal} {s s' piece : Segment}

/-- What is written for the source from `lo` up to `hi`. A guard stands for the byte it is put at,
where one may be. -/
inductive Piece (source : Text) (guards : Nat → Prop) : Nat → Nat → Segment → Prop
  | kept {lo : Nat} {c : Char} : source.charAt? lo = some c →
    Piece source guards lo (lo + c.utf8Size) [.kept c lo]
  | respelled {lo hi : Nat} {next : Option Char} {unit w : Text} :
    source.slice? lo hi = some unit → respelling? unit next = some w →
    Piece source guards lo hi (.spell lo w)
  | guard {lo : Nat} : guards lo → lo < source.size →
    Piece source guards lo (lo + 1) [.spelled ';' lo]

inductive Traced (source : Text) (guards : Nat → Prop) : Nat → Nat → Segment → Prop
  | nil {lo hi : Nat} : lo ≤ hi → Traced source guards lo hi []
  | cons {lo start stop hi : Nat} {piece s : Segment} : lo ≤ start →
    Piece source guards start stop piece → Traced source guards stop hi s →
    Traced source guards lo hi (piece ++ s)

theorem Segment.origins_spell (o : Nat) (w : Text) :
    (Segment.spell o w).origins = List.replicate w.size o := by
  induction w with
  | nil => rfl
  | cons c w ih =>
    have hcons : (Segment.spell o (c :: w)).origins =
        List.replicate c.utf8Size o ++ (Segment.spell o w).origins := rfl
    rw [hcons, ih, List.replicate_append_replicate, size_cons]

structure Segment.Spells (s : Segment) (j x : Nat) (w : Text) : Prop where
  written : s.text.slice? j (j + w.size) = some w
  origins_eq : ∀ k < w.size, s.origins[j + k]? = some x

theorem Segment.spells_append (pre post : Segment) (x : Nat) (w : Text) :
    (pre ++ .spell x w ++ post).Spells pre.text.size x w where
  written := by
    refine slice?_eq_some.2 ⟨pre.text, post.text, ?_, rfl, rfl⟩
    rw [Segment.text_append, Segment.text_append, Segment.text_spell]
  origins_eq k hk := by
    rw [Segment.getElem?_origins_append (by rwa [Segment.text_spell]), Segment.origins_spell,
      List.getElem?_replicate, if_pos hk]

namespace Piece

theorem bounds (h : Piece source guards lo hi piece) : lo < hi ∧ hi ≤ source.size := by
  cases h with
  | @kept c hc => exact ⟨Nat.lt_add_of_pos_right c.utf8Size_pos, charAt?_lt_size hc⟩
  | @respelled _ _ unit _ hslice hw =>
    obtain ⟨a, r, rfl, rfl, rfl⟩ := slice?_eq_some.1 hslice
    have hpos : 0 < unit.size := by
      rw [Nat.pos_iff_ne_zero, ne_eq, size_eq_zero]
      rintro rfl
      cases hw
    simp only [size_append]
    omega
  | guard _ ho => exact ⟨Nat.lt_succ_self lo, ho⟩

theorem origins (h : Piece source guards lo hi piece) :
    piece.origins.Pairwise (· ≤ ·) ∧ ∀ x ∈ piece.origins, lo ≤ x ∧ x < hi := by
  have hlt := h.bounds.1
  cases h with
  | @kept c hc =>
    rw [Segment.origins_singleton]
    exact ⟨List.pairwise_le_range' _, fun x hx ↦ List.mem_range'_1.1 hx⟩
  | respelled hslice hw =>
    rw [Segment.origins_spell]
    refine ⟨List.pairwise_replicate.2 (.inr (Nat.le_refl _)), fun x hx ↦ ?_⟩
    rw [List.eq_of_mem_replicate hx]
    exact ⟨Nat.le_refl _, hlt⟩
  | guard _ ho =>
    refine ⟨List.pairwise_singleton _ _, fun x hx ↦ ?_⟩
    rw [List.mem_singleton.1 hx]
    exact ⟨Nat.le_refl _, hlt⟩

end Piece

namespace Traced

theorem le (h : Traced source guards lo hi s) : lo ≤ hi := by
  induction h with
  | nil h => exact h
  | cons hle hp _ ih =>
    have := hp.bounds.1
    omega

theorem skip (h : lo ≤ mid) (hs : Traced source guards mid hi s) :
    Traced source guards lo hi s := by
  cases hs with
  | nil h' => exact .nil (Nat.le_trans h h')
  | cons hle hp ht => exact .cons (Nat.le_trans h hle) hp ht

theorem append (h : Traced source guards lo mid s) (h' : Traced source guards mid hi s') :
    Traced source guards lo hi (s ++ s') := by
  induction h with
  | nil h => exact h'.skip h
  | cons hle hp _ ih =>
    rw [List.append_assoc]
    exact .cons hle hp (ih h')

theorem of_piece (h : Piece source guards lo hi piece) : Traced source guards lo hi piece := by
  rw [← List.append_nil piece]
  exact .cons (Nat.le_refl lo) h (.nil (Nat.le_refl hi))

theorem of_slice? {t : Text} (h : source.slice? lo hi = some t) :
    Traced source guards lo hi (.copy lo t) := by
  induction t generalizing lo with
  | nil =>
    have hsize := size_of_slice? h
    exact .nil (Nat.le_of_eq hsize)
  | cons c t ih =>
    obtain ⟨hc, ht⟩ := (slice?_append (x := [c])).1 h
    have hsize : size [c] = c.utf8Size := Nat.add_zero _
    rw [hsize] at ht
    exact .cons (Nat.le_refl lo) (.kept (charAt?_of_slice? h)) (ih ht)

theorem bounds (h : Traced source guards lo hi s) :
    ∀ x ∈ s.origins, lo ≤ x ∧ x < source.size := by
  induction h with
  | nil => nofun
  | cons hle hp _ ih =>
    intro x hx
    rw [Segment.origins_append, List.mem_append] at hx
    obtain ⟨hlt, hsize⟩ := hp.bounds
    rcases hx with hx | hx
    · have := hp.origins.2 x hx
      omega
    · have := ih x hx
      omega

theorem sorted_origins (h : Traced source guards lo hi s) : s.origins.Pairwise (· ≤ ·) := by
  induction h with
  | nil => exact List.Pairwise.nil
  | cons hle hp ht ih =>
    rw [Segment.origins_append, List.pairwise_append]
    refine ⟨hp.origins.1, ih, fun x hx y hy ↦ ?_⟩
    have := hp.origins.2 x hx
    have := ht.bounds y hy
    omega

theorem accounting (source : Text) (guards : Nat → Prop) :
    Segment.Accounting source (Traced source guards) where
  le := le
  lt_size h x hx := (h.bounds x hx).2
  nil lo := .nil (Nat.le_refl lo)
  copy := of_slice?
  respell h hw := of_piece (.respelled h hw)
  remove h _ _ := .nil h
  append := append

theorem exists_piece (h : Traced source guards lo hi s) (hi' : i < s.text.size) :
    ∃ pre piece post start stop k, s = pre ++ piece ++ post ∧ i = pre.text.size + k ∧
      k < piece.text.size ∧ Piece source guards start stop piece ∧
      Traced source guards stop hi post := by
  induction h generalizing i with
  | nil => cases hi'
  | @cons lo start stop hi piece s hle hp ht ih =>
    rw [Segment.text_append, size_append] at hi'
    by_cases hk : i < piece.text.size
    · exact ⟨[], piece, s, start, stop, i, rfl, (Nat.zero_add i).symm, hk, hp, ht⟩
    · obtain ⟨pre, piece', post, start', stop', k, rfl, hik, hk', hp', ht'⟩ :=
        ih (i := i - piece.text.size) (by omega)
      refine ⟨piece ++ pre, piece', post, start', stop', k, ?_, ?_, hk', hp', ht'⟩
      · simp only [List.append_assoc]
      · rw [Segment.text_append, size_append]
        omega

end Traced

/-- A unit of the source that is spelled another way in the output from byte `j` on. All bytes of
the new spelling stand for the first one of the old. -/
structure RespelledAt (source output : Text) (origins : List Nat) (j o : Nat) (old new : Text) :
    Prop where
  spelling : old = ['$'] ∧ new = ['\\', '$'] ∨ old = ['\\', '0'] ∧ new = ['\\', 'x', '0', '0']
  read : source.slice? o (o + old.size) = some old
  written : output.slice? j (j + new.size) = some new
  origins_eq : ∀ k < new.size, origins[j + k]? = some o

theorem spelling_of_respelling? {unit w : Text} {next : Option Char}
    (h : respelling? unit next = some w) :
    unit = ['$'] ∧ w = ['\\', '$'] ∨ unit = ['\\', '0'] ∧ w = ['\\', 'x', '0', '0'] := by
  obtain ⟨c, -, hc⟩ := respelling?_eq_some_iff.1 h
  cases hc with
  | dollar => exact .inl ⟨rfl, rfl⟩
  | null => exact .inr ⟨rfl, rfl⟩

namespace Traced

theorem respelledAt {pre post : Segment} {unit w : Text} {next : Option Char}
    (hslice : source.slice? lo hi = some unit) (hw : respelling? unit next = some w) :
    RespelledAt source (pre ++ .spell lo w ++ post).text (pre ++ .spell lo w ++ post).origins
      pre.text.size lo unit w where
  spelling := spelling_of_respelling? hw
  read := by
    have hsize := size_of_slice? hslice
    rwa [hsize]
  written := (Segment.spells_append pre post lo w).written
  origins_eq := (Segment.spells_append pre post lo w).origins_eq

/-- Every byte of the text is the byte it came from, a guard, or part of a unit that is spelled
another way. -/
theorem getElem?_bytes (h : Traced source guards lo hi s) (hx : s.origins[i]? = some x) :
    s.text.bytes[i]? = source.bytes[x]? ∨ (s.text.charAt? i = some ';' ∧ guards x) ∨
      ∃ j old new, RespelledAt source s.text s.origins j x old new ∧ j ≤ i ∧ i < j + new.size := by
  obtain ⟨hi', -⟩ := List.getElem?_eq_some_iff.1 hx
  rw [Segment.length_origins] at hi'
  obtain ⟨pre, piece, post, start, stop, k, rfl, rfl, hk, hp, -⟩ := h.exists_piece hi'
  rw [Segment.getElem?_origins_append hk] at hx
  cases hp with
  | @kept c hc =>
    rw [Segment.size_text_singleton, Glyph.char] at hk
    have hxk : start + k = x := by
      rw [Segment.origins_singleton, Glyph.origins, List.getElem?_range' hk] at hx
      simpa using hx
    obtain ⟨a, r, rfl, rfl⟩ := charAt?_eq_some.1 hc
    refine .inl ?_
    rw [← hxk, Text.getElem?_bytes hk, Segment.text_append, Segment.text_append, List.append_assoc]
    exact Text.getElem?_bytes hk
  | respelled hslice hw =>
    rw [Segment.origins_spell, List.getElem?_replicate] at hx
    rw [Segment.text_spell] at hk
    rw [if_pos hk, Option.some.injEq] at hx
    subst hx
    exact .inr (.inr ⟨_, _, _, respelledAt hslice hw, Nat.le_add_right _ _,
      Nat.add_lt_add_left hk _⟩)
  | guard hg _ =>
    obtain rfl : k = 0 := Nat.lt_one_iff.1 hk
    obtain rfl : start = x := Option.some.inj hx
    refine .inr (.inl ⟨charAt?_eq_some.2 ⟨pre.text, post.text, ?_, rfl⟩, hg⟩)
    rw [Segment.text_append, Segment.text_append, List.append_assoc]
    rfl

theorem respelledAt_of_eq (h : Traced source guards lo hi s) (hx : s.origins[i]? = some x)
    (hx' : s.origins[i + 1]? = some x) :
    ∃ j old new, RespelledAt source s.text s.origins j x old new ∧ j ≤ i ∧
      i + 1 < j + new.size := by
  obtain ⟨hi', -⟩ := List.getElem?_eq_some_iff.1 hx
  rw [Segment.length_origins] at hi'
  obtain ⟨pre, piece, post, start, stop, k, rfl, rfl, hk, hp, hpost⟩ := h.exists_piece hi'
  rw [Segment.getElem?_origins_append hk] at hx
  by_cases hk' : k + 1 < piece.text.size
  · rw [Nat.add_assoc, Segment.getElem?_origins_append hk'] at hx'
    cases hp with
    | @kept c hc =>
      rw [Segment.size_text_singleton, Glyph.char] at hk hk'
      rw [Segment.origins_singleton, Glyph.origins, List.getElem?_range' hk,
        Option.some.injEq] at hx
      rw [Segment.origins_singleton, Glyph.origins, List.getElem?_range' hk',
        Option.some.injEq] at hx'
      omega
    | respelled hslice hw =>
      rw [Segment.origins_spell, List.getElem?_replicate] at hx
      rw [Segment.text_spell] at hk hk'
      rw [if_pos hk, Option.some.injEq] at hx
      subst hx
      refine ⟨_, _, _, respelledAt hslice hw, Nat.le_add_right _ _, ?_⟩
      rw [Nat.add_assoc]
      exact Nat.add_lt_add_left hk' _
    | guard => exact absurd hk' (Nat.not_lt.2 (Nat.le_add_left _ _))
  · -- The next byte stands for what lies behind the piece.
    have hlt := (hp.origins.2 x (List.mem_of_getElem? hx)).2
    have hlen : (pre ++ piece).origins.length = pre.text.size + k + 1 := by
      rw [Segment.length_origins, Segment.text_append, size_append]
      omega
    rw [Segment.origins_append, List.getElem?_append_right (Nat.le_of_eq hlen)] at hx'
    have := (hpost.bounds x (List.mem_of_getElem? hx')).1
    omega

end Traced

theorem traced_replacement? (hw : n.Ranged source) (hne : marker ≠ [])
    (h : replacement? marker source n = some l) :
    ∃ s, l.toSegment? source = some s ∧ Traced source guards n.start n.stop s ∧
      (guards n.start → Traced source guards n.start n.stop (.spelled ';' n.start :: s)) := by
  obtain ⟨t, s, -, -, hranged, hle, hle', hs, htraced⟩ :=
    exists_segment_of_replacement? (Traced.accounting source guards).composing hw h
  have hpos : 0 < marker.size := by
    rw [Nat.pos_iff_ne_zero, ne_eq, size_eq_zero]
    exact hne
  have hlt := htraced.le
  have hsize := hranged.isBoundary.2.le_size
  have hwhole : Traced source guards t.start n.stop s := by
    rw [← List.append_nil s]
    exact htraced.append (.nil hle')
  refine ⟨s, hs, hwhole.skip (by omega), fun hg ↦ ?_⟩
  have hguard : Piece source guards n.start (n.start + 1) [.spelled ';' n.start] :=
    .guard hg (by omega)
  exact .cons (Nat.le_refl _) hguard (hwhole.skip (by omega))

def Segment.Inside (source : Text) (lo hi : Nat) (s : Segment) : Prop :=
  lo ≤ hi ∧ ∀ x ∈ s.origins, lo ≤ x ∧ x < hi ∧ x < source.size

theorem Piece.inside (h : Piece source guards lo hi s) : Segment.Inside source lo hi s := by
  obtain ⟨hlt, hsize⟩ := h.bounds
  refine ⟨Nat.le_of_lt hlt, fun x hx ↦ ?_⟩
  obtain ⟨hlo, hhi⟩ := h.origins.2 x hx
  exact ⟨hlo, hhi, Nat.lt_of_lt_of_le hhi hsize⟩

theorem Segment.Inside.accounting (source : Text) : Accounting source (Inside source) where
  le h := h.1
  lt_size h x hx := (h.2 x hx).2.2
  nil lo := ⟨Nat.le_refl lo, nofun⟩
  copy h := by
    refine ⟨Nat.le.intro (size_of_slice? h), fun x hx ↦ ?_⟩
    obtain ⟨hlo, hhi, hsize⟩ := bounds_of_mem_origins_copy h hx
    exact ⟨hlo, hhi, Nat.lt_of_lt_of_le hhi hsize⟩
  respell h hw :=
    have hpiece : Piece source (fun _ ↦ False) _ _ _ := .respelled h hw
    hpiece.inside
  remove h _ _ := ⟨h, nofun⟩
  append h h' := by
    have := h.1
    have := h'.1
    refine ⟨by omega, fun x hx ↦ ?_⟩
    rw [origins_append, List.mem_append] at hx
    rcases hx with hx | hx
    · have := h.2 x hx
      omega
    · have := h'.2 x hx
      omega

theorem inside_replacement? (hw : n.Ranged source) (h : replacement? marker source n = some l) :
    ∃ s, l.toSegment? source = some s ∧ Segment.Inside source n.start n.stop s ∧
      Segment.Inside source n.start n.stop (.spelled ';' n.start :: s) := by
  obtain ⟨t, s, -, hl, -, hle, hle', hs, hinside⟩ :=
    exists_segment_of_replacement? (Segment.Inside.accounting source).composing hw h
  obtain ⟨hstart, -, hlt, hopen, -⟩ := Literal.ofNode?_eq_some hl
  have hsize := charAt?_lt_size hopen
  have hpos := mark.utf8Size_pos
  have hwide : ∀ x ∈ s.origins, n.start ≤ x ∧ x < n.stop ∧ x < source.size := by
    intro x hx
    have := hinside.2 x hx
    omega
  refine ⟨s, hs, ⟨by omega, hwide⟩, by omega, fun x hx ↦ ?_⟩
  rcases List.mem_append.1 hx with hx | hx
  · rw [List.eq_of_mem_replicate hx]
    omega
  · exact hwide x hx

end Template

end TemplateSqueeze
