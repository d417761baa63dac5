import TemplateSqueeze.Proofs.SourceMap.Bounds
import TemplateSqueeze.Proofs.SourceMap.Exact

namespace TemplateSqueeze.SourceMap

open Text Template Segment
open Source (squeezeMapped_eq)

variable {source fileName code : Text} {tokens : List Token} {origins : Nat → Option Nat}
  {s : Segment} {p : Position} {t : Token} {b : Nat}

/-- Tokens that lead from whatever shows in a code to the file it was made from: to the line of its
origin, and no further right than there. -/
structure Leads (source fileName code : Text) (tokens : List Token) (origins : Nat → Option Nat) :
    Prop where
  sorted : Sorted tokens
  notRanged : ∀ t ∈ tokens, t.ranged = false
  boundaries : ∀ t ∈ tokens, ∃ n,
    code.IsBoundary n ∧ (LineTable.ofText code).positionOf n = t.position
  unique : ∀ b, code.IsBoundary b → (LineTable.ofText code).inContent b → ∀ t u,
    Governs tokens ((LineTable.ofText code).positionOf b) t →
      Governs tokens ((LineTable.ofText code).positionOf b) u → t.place = u.place
  leads : ∀ b, code.IsBoundary b → (LineTable.ofText code).inContent b → ∃ t o,
    Governs tokens ((LineTable.ofText code).positionOf b) t ∧ origins b = some o ∧
      t.place.source = some fileName ∧
      t.place.line = ((LineTable.ofText source).positionOf o).line ∧
      t.place.column ≤ ((LineTable.ofText source).positionOf o).column

theorem Leads.not_splitsPair (h : Leads source fileName code tokens origins) :
    ∀ t ∈ tokens, ¬ (LineTable.ofText code).splitsPair t.position := by
  intro t ht
  obtain ⟨n, hn, hp⟩ := h.boundaries t ht
  rw [← hp]
  exact LineTable.not_splitsPair_positionOf hn

theorem Leads.eraseReps (h : Leads source fileName code tokens origins) :
    Leads source fileName code tokens.eraseReps origins where
  sorted := h.sorted.sublist (eraseReps_sublist tokens)
  notRanged t ht := h.notRanged t (mem_eraseReps.1 ht)
  boundaries t ht := h.boundaries t (mem_eraseReps.1 ht)
  unique b hb hc t u ht hu := h.unique b hb hc t u (governs_eraseReps.1 ht) (governs_eraseReps.1 hu)
  leads b hb hc := by
    obtain ⟨t, o, ht, h⟩ := h.leads b hb hc
    exact ⟨t, o, governs_eraseReps.2 ht, h⟩

theorem leads_freshTokens (h : Faithful source 0 source.size s) (fileName : Text) :
    Leads source fileName s.text ((Change.ofSegment source s).freshTokens fileName)
      (s.origins[·]?) where
  sorted := sorted_freshTokens h
  notRanged t ht := by
    obtain ⟨k, o, -, rfl⟩ := Change.mem_freshTokens.1 ht
    rfl
  boundaries t ht := by
    obtain ⟨k, o, hk, rfl⟩ := Change.mem_freshTokens.1 ht
    exact ⟨k, isBoundary_of_mem_joints h (Change.mem_jointOrigins.1 hk).1, rfl⟩
  unique b hb hc t u ht hu := by
    obtain ⟨a, o, n, hs, -⟩ := exists_stretch h hb hc
    rw [governs_freshTokens h hs ht, governs_freshTokens h hs hu]
  leads b hb hc := by
    obtain ⟨a, o, n, hs, hn⟩ := exists_stretch h hb hc
    obtain ⟨t, -, ht⟩ := exists_lookup?_freshTokens fileName h hs
    have hle := hs.positionOf_le
    have hline := hs.line
    have hcolumns := hs.columns
    rw [Position.precedes_iff] at hle
    refine ⟨t, n, ht, hn, ?_⟩
    rw [governs_freshTokens h hs ht]
    refine ⟨rfl, hs.sourceLine, ?_⟩
    simp only
    omega

theorem Leads.carry (hl : Leads source fileName code tokens origins)
    (h : Faithful code 0 code.size s) :
    Leads source fileName s.text (settled ((Change.ofSegment code s).candidates tokens))
      fun b ↦ s.origins[b]?.bind origins where
  sorted := .of_strict (pairwise_settled _)
  notRanged t ht := ranged_of_mem_candidates (mem_of_mem_settled ht)
  boundaries t ht := by
    rcases Change.mem_candidates.1 (mem_of_mem_settled ht) with ⟨u, hu, hm⟩ | ⟨k, o, hk, rfl⟩
    · obtain ⟨m, k, ho, -, hk, -, rfl⟩ := Change.moved?_eq_some.1 hm
      have hb := (LineTable.positionOf_offsetOf? (hl.not_splitsPair u hu) ho).1
      exact ⟨k, isBoundary_of_origin h hk hb, rfl⟩
    · exact ⟨k, isBoundary_of_mem_joints h (Change.mem_jointOrigins.1 hk).1, rfl⟩
  unique b hb hc t u ht hu := congrArg Token.place (ht.eq (pairwise_settled _) hu)
  leads b hb hc := by
    obtain ⟨a, o, n, hs, hn⟩ := exists_stretch h hb hc
    have hu := hl.unique n hs.sourceBoundaries.2 hs.sourceContents.2
    obtain ⟨t, o', ht, ho', hplace⟩ := hl.leads n hs.sourceBoundaries.2 hs.sourceContents.2
    have hp := placeOf?_settled hs h hl.sorted hl.notRanged hl.not_splitsPair hu
    have hmapped : t.place.source.isSome := by simp [hplace.1]
    rw [placeOf?_of_governs hl.sorted hl.notRanged hu ht, Option.filter_some, if_pos hmapped,
      placeOf?, Option.filter_eq_some_iff] at hp
    obtain ⟨t', ht', he⟩ := Option.map_eq_some_iff.1 hp.1
    have hg := governs_of_lookup?_settled ht'
    rw [Token.placeAt_of_not_ranged (ranged_of_mem_candidates hg.mem)] at he
    refine ⟨t', o', governs_of_lookup? (.of_strict (pairwise_settled _)) ht', ?_, by rwa [he]⟩
    rw [hn]
    exact ho'

theorem Leads.read_write (known : Option (Text × Text))
    (hl : Leads source fileName code tokens origins) (hb : Bounded source.size code tokens)
    (hsource : source.size < wordSize) (hcode : code.size < wordSize) :
    read (write known tokens) = .ok tokens.eraseReps := by
  refine SourceMap.read_write known hl.eraseReps.sorted (fun t ht ↦ ?_)
    (Nat.lt_of_le_of_lt hb.eraseReps.length hcode)
  refine ⟨hl.eraseReps.notRanged t ht, ?_, ?_⟩
  · obtain ⟨n, -, hn⟩ := hl.eraseReps.boundaries t ht
    rw [← hn]
    exact Nat.lt_of_le_of_lt (LineTable.positionOf_le_size code n).2 hcode
  · refine (hb.eraseReps.placed t ht).imp_right fun ⟨hplaced, hline, hcolumn⟩ ↦ ⟨hplaced, ?_, ?_⟩
    · exact Nat.lt_of_le_of_lt hline hsource
    · exact Nat.lt_of_le_of_lt hcolumn hsource

theorem squeezeCarried_eq {marker map : Text} {tree : Node} {q : Squeezed}
    (hq : Source.squeeze marker code tree = .ok q) (hr : read map = .ok tokens) :
    Source.squeezeCarried marker code map tree =
      .ok ⟨q.code, write none (carryTokens code q.code q.edits tokens)⟩ := by
  rw [Source.squeezeCarried_eq hq, hr]

/-- What passes over a source leave: a code, its map, and for each byte of the code the byte of the
source that it came from. The first pass makes the map, and each further one carries it over. No
text is too long for the numbers in a map. -/
inductive Passes (source fileName : Text) : Text → Text → (Nat → Option Nat) → Prop
  | first {marker : Text} {tree : Node} {q : Squeezed} {m : Mapped} :
    source.size < wordSize →
    tree.WellFormed source →
    Source.squeeze marker source tree = .ok q →
    Source.squeezeMapped marker source fileName tree = .ok m →
    m.code.size < wordSize →
    Passes source fileName m.code m.map ((Edit.spliceOrigins source.size q.edits)[·]?)
  | next {code map : Text} {origins : Nat → Option Nat} {marker : Text} {tree : Node}
    {q : Squeezed} {m : Mapped} :
    Passes source fileName code map origins →
    tree.WellFormed code →
    Source.squeeze marker code tree = .ok q →
    Source.squeezeCarried marker code map tree = .ok m →
    m.code.size < wordSize →
    Passes source fileName m.code m.map
      fun b ↦ (Edit.spliceOrigins code.size q.edits)[b]?.bind origins

theorem exists_ofSegment {marker : Text} {tree : Node} {q : Squeezed} (hw : tree.WellFormed code)
    (hq : Source.squeeze marker code tree = .ok q) : ∃ s : Segment, q.code = s.text ∧
      Edit.spliceOrigins code.size q.edits = s.origins ∧
      Change.ofEdits code q.code q.edits = .ofSegment code s ∧ Faithful code 0 code.size s := by
  obtain ⟨q', s, hq', hcode, horigins, hf⟩ := Source.exists_squeeze marker hw
  obtain rfl := Except.ok.inj (hq.symm.trans hq')
  refine ⟨s, hcode, horigins, ?_, hf⟩
  rw [hcode, Change.ofEdits_eq_ofSegment horigins]

theorem Passes.size_lt {map : Text} (h : Passes source fileName code map origins) :
    source.size < wordSize := by
  induction h with
  | first hsource => exact hsource
  | next _ _ _ _ _ ih => exact ih

theorem Passes.exists_read {map : Text} (h : Passes source fileName code map origins) :
    ∃ tokens, read map = .ok tokens ∧ Leads source fileName code tokens origins ∧
      Bounded source.size code tokens := by
  induction h with
  | @first marker tree q m hsource hw hq hm hsize =>
    obtain ⟨s, hcode, horigins, hchange, hf⟩ := exists_ofSegment hw hq
    rw [squeezeMapped_eq hq] at hm
    cases hm
    have hl := leads_freshTokens hf fileName
    have hb := bounded_freshTokens source fileName s
    rw [← hcode, ← hchange] at hl hb
    rw [horigins]
    exact ⟨_, hl.read_write (some (fileName, source)) hb hsource hsize, hl.eraseReps, hb.eraseReps⟩
  | @next code map origins marker tree q m h hw hq hm hsize ih =>
    obtain ⟨tokens, hr, hl, hb⟩ := ih
    obtain ⟨s, hcode, horigins, hchange, hf⟩ := exists_ofSegment hw hq
    rw [squeezeCarried_eq hq hr] at hm
    cases hm
    have hl' := hl.carry hf
    have hb' := hb.carry hl.sorted hl.notRanged s
    rw [← hcode, ← hchange] at hl' hb'
    rw [horigins]
    exact ⟨_, hl'.read_write none hb' h.size_lt hsize, hl'.eraseReps, hb'.eraseReps⟩

/-- After any number of passes, the map that the last one left can be read, and whatever shows in
the code is led by it to the line of its origin in the source, and no further right than there.
Whichever marker comes next, one more pass succeeds. -/
theorem Passes.exists_lookup?_origin {map : Text} (h : Passes source fileName code map origins) :
    (∃ tokens, read map = .ok tokens ∧
      ∀ b c, code.charAt? b = some c → (LineTable.ofText code).inContent b →
        ∃ t o, lookup? tokens ((LineTable.ofText code).positionOf b) = some t ∧
          origins b = some o ∧ t.place.source = some fileName ∧
          t.place.line = ((LineTable.ofText source).positionOf o).line ∧
          t.place.column ≤ ((LineTable.ofText source).positionOf o).column) ∧
    ∀ marker tree, tree.WellFormed code →
      ∃ m, Source.squeezeCarried marker code map tree = .ok m := by
  obtain ⟨tokens, hr, hl, -⟩ := h.exists_read
  refine ⟨⟨tokens, hr, fun b c hc hb ↦ ?_⟩, fun marker tree hw ↦ ?_⟩
  · have hboundary := isBoundary_of_charAt? hc
    obtain ⟨t, o, ht, ho, hplace⟩ := hl.leads b hboundary hb
    obtain ⟨u, hu⟩ := exists_lookup? hl.sorted ht.mem ht.le
    have hp := hl.unique b hboundary hb u t (governs_of_lookup? hl.sorted hu) ht
    exact ⟨u, o, hu, ho, by rwa [hp]⟩
  · obtain ⟨q, -, hq, -⟩ := Source.exists_squeeze marker hw
    exact ⟨_, squeezeCarried_eq hq hr⟩

def chainedText : Text := "T(\x60a  b\x60);U(\x60c \\\n d\x60);e\n".toList

def chainedTree : Node :=
  ⟨.program, 0, 24, false, [
    ⟨.expressionStatement, 0, 10, false, [callNode 0 9 [], ⟨.token, 9, 10, false, []⟩]⟩,
    ⟨.expressionStatement, 10, 22, false, [callNode 10 21 [], ⟨.token, 21, 22, false, []⟩]⟩,
    ⟨.expressionStatement, 22, 23, false, [⟨.identifier, 22, 23, false, []⟩]⟩]⟩

def halfwayText : Text := "\x60ab\x60;U(\x60c \\\n d\x60);e\n".toList

def halfwayTree : Node :=
  ⟨.program, 0, 19, false, [
    ⟨.expressionStatement, 0, 5, false, [templateNode 0 4 [], ⟨.token, 4, 5, false, []⟩]⟩,
    ⟨.expressionStatement, 5, 17, false, [callNode 5 16 [], ⟨.token, 16, 17, false, []⟩]⟩,
    ⟨.expressionStatement, 17, 18, false, [⟨.identifier, 17, 18, false, []⟩]⟩]⟩

def finishedText : Text := "\x60ab\x60;\x60cd\x60;e\n".toList

theorem wellFormed_chainedTree : chainedTree.WellFormed chainedText := by
  decide

theorem wellFormed_halfwayTree : halfwayTree.WellFormed halfwayText := by
  decide

theorem squeeze_chainedText : Source.squeeze ['T'] chainedText chainedTree =
    .ok ⟨halfwayText, [⟨0, 9, "\x60ab\x60".toList, [2, 3, 6, 7]⟩]⟩ := by
  cbv

theorem squeeze_halfwayText : Source.squeeze ['U'] halfwayText halfwayTree =
    .ok ⟨finishedText, [⟨5, 16, "\x60cd\x60".toList, [7, 8, 13, 14]⟩]⟩ := by
  cbv

/-- The second pass joins two lines, and what comes after them still leads to the second one. -/
theorem Passes.exists_lookup?_origin_chainedText : ∃ map origins,
    Passes chainedText ['f'] finishedText map origins ∧
      origins 10 = some 22 ∧ ∃ tokens t, read map = .ok tokens ∧
        lookup? tokens ⟨0, 10⟩ = some t ∧ t.place.source = some ['f'] ∧ t.place.line = 1 := by
  have hfirst : Passes chainedText ['f'] _ _ _ := .first (by decide)
    wellFormed_chainedTree squeeze_chainedText (squeezeMapped_eq squeeze_chainedText) (by decide)
  obtain ⟨_, hread, -⟩ := hfirst.exists_read
  have hsize : finishedText.size < wordSize := by decide
  have h := hfirst.next wellFormed_halfwayTree squeeze_halfwayText
    (squeezeCarried_eq squeeze_halfwayText hread) hsize
  have hc : finishedText.charAt? 10 = some 'e' := by cbv
  have hb : (LineTable.ofText finishedText).inContent 10 := by cbv
  have hposition : (LineTable.ofText finishedText).positionOf 10 = ⟨0, 10⟩ := by cbv
  have hline : ((LineTable.ofText chainedText).positionOf 22).line = 1 := by cbv
  obtain ⟨⟨tokens, hr, hlook⟩, -⟩ := h.exists_lookup?_origin
  obtain ⟨t, o, ht, ho, hname, hplace, -⟩ := hlook 10 'e' hc hb
  obtain rfl : 22 = o := Option.some.inj ho
  rw [hposition] at ht
  rw [hline] at hplace
  exact ⟨_, _, h, ho, tokens, t, hr, ht, hname, hplace⟩

end TemplateSqueeze.SourceMap
