import Mathlib
import TemplateSqueeze.Proofs.Edit.Splice
import TemplateSqueeze.Proofs.SourceMap.Carried

namespace TemplateSqueeze

open Text Template Segment SourceMap

variable {source : Text} {tree : Node} {tokens : List Token}

/-- Whatever shows in a squeezed source is led back by a fresh token on its line, and by the columns
in between, to exactly the line and column of its origin. -/
theorem Source.freshTokens_exact (marker fileName : Text) (h : tree.WellFormed source) :
    ∃ q, squeeze marker source tree = .ok q ∧
      ∀ b c, q.code.charAt? b = some c → (LineTable.ofText q.code).inContent b →
        ∃ o t, (Edit.spliceOrigins source.size q.edits)[b]? = some o ∧
          lookup? ((Change.ofEdits source q.code q.edits).freshTokens fileName)
            ((LineTable.ofText q.code).positionOf b) = some t ∧
          t.position.line = ((LineTable.ofText q.code).positionOf b).line ∧
          t.position.column ≤ ((LineTable.ofText q.code).positionOf b).column ∧
          t.place.source = some fileName ∧
          ⟨t.place.line, t.place.column +
              (((LineTable.ofText q.code).positionOf b).column - t.position.column)⟩ =
            (LineTable.ofText source).positionOf o := by
  obtain ⟨⟨code, edits⟩, s, hq, rfl, horigins, hf⟩ := exists_squeeze marker h
  refine ⟨_, hq, fun b c hc hb ↦ ?_⟩
  obtain ⟨a, o, n, hs, hn⟩ := exists_stretch hf (isBoundary_of_charAt? hc) hb
  obtain ⟨t, ht, hg⟩ := exists_lookup?_freshTokens fileName hf hs
  refine ⟨n, t, by rw [horigins, hn], ?_, ?_⟩
  · rw [Change.ofEdits_eq_ofSegment horigins]
    exact ht
  · have hle := hs.positionOf_le
    have hline := hs.line
    have hcolumns := hs.columns
    have hsource := hs.sourceLine
    rw [Position.precedes_iff] at hle
    rw [governs_freshTokens hf hs hg]
    refine ⟨hline, by simp only; omega, rfl, ?_⟩
    generalize (LineTable.ofText source).positionOf n = p at hcolumns hsource ⊢
    obtain ⟨line, column⟩ := p
    simp only [Position.mk.injEq] at hcolumns hsource ⊢
    exact ⟨hsource, by omega⟩

theorem squeeze_sampleText : ∃ edits,
    Source.squeeze ['T'] sampleText sampleTree = .ok ⟨"\x60ab\x60\n".toList, edits⟩ := by
  obtain ⟨⟨code, edits⟩, s, hq, -⟩ := Source.exists_squeeze ['T'] wellFormed_sampleTree
  have hcode : (Source.squeeze ['T'] sampleText sampleTree).toOption.map Squeezed.code =
      some "\x60ab\x60\n".toList := by cbv
  rw [hq] at hcode
  obtain rfl := Option.some.inj hcode
  exact ⟨edits, hq⟩

theorem Source.freshTokens_exact_sampleText : sampleTree.WellFormed sampleText ∧
    ∃ q o t, squeeze ['T'] sampleText sampleTree = .ok q ∧
      (Edit.spliceOrigins sampleText.size q.edits)[2]? = some o ∧
      lookup? ((Change.ofEdits sampleText q.code q.edits).freshTokens ['f'])
        ((LineTable.ofText q.code).positionOf 2) = some t ∧
      ⟨t.place.line, t.place.column +
          (((LineTable.ofText q.code).positionOf 2).column - t.position.column)⟩ =
        (LineTable.ofText sampleText).positionOf o := by
  obtain ⟨edits, hs⟩ := squeeze_sampleText
  obtain ⟨q, hq, h⟩ := freshTokens_exact ['T'] ['f'] wellFormed_sampleTree
  rw [hs] at hq
  cases hq
  obtain ⟨o, t, ho, ht, -, -, -, hp⟩ := h 2 'b' rfl (by cbv)
  exact ⟨wellFormed_sampleTree, _, o, t, hs, ho, ht, hp⟩

/-- A carried map gives whatever shows in the squeezed source the place that the old map gives its
origin, or none where that gives none. -/
theorem Source.placeOf?_carryTokens (marker : Text) (h : tree.WellFormed source)
    (hsorted : Sorted tokens) (hdistinct : tokens.Pairwise fun t u ↦ t.position ≠ u.position)
    (hr : ∀ t ∈ tokens, t.ranged = false)
    (hpairs : ∀ t ∈ tokens, ¬ (LineTable.ofText source).splitsPair t.position) :
    ∃ q, squeeze marker source tree = .ok q ∧
      ∀ b c, q.code.charAt? b = some c → (LineTable.ofText q.code).inContent b →
        ∃ o, (Edit.spliceOrigins source.size q.edits)[b]? = some o ∧
          placeOf? (carryTokens source q.code q.edits tokens)
              ((LineTable.ofText q.code).positionOf b) =
            placeOf? tokens ((LineTable.ofText source).positionOf o) := by
  obtain ⟨⟨code, edits⟩, s, hq, rfl, horigins, hf⟩ := exists_squeeze marker h
  refine ⟨_, hq, fun b c hc hb ↦ ?_⟩
  obtain ⟨a, o, n, hs, hn⟩ := exists_stretch hf (isBoundary_of_charAt? hc) hb
  have hstrict : tokens.Pairwise fun t u ↦ t.position.precedes u.position :=
    (hsorted.and hdistinct).imp fun ⟨hle, hne⟩ ↦ Position.precedes_of_not_precedes hle hne
  refine ⟨n, by rw [horigins, hn], ?_⟩
  rw [carryTokens, Change.ofEdits_eq_ofSegment horigins]
  exact placeOf?_settled hs hf hsorted hr hpairs fun t u ht hu ↦
    congrArg Token.place (ht.eq hstrict hu)

def sampleTokens : List Token :=
  [⟨⟨0, 0⟩, ⟨7, 1, some ['f'], none⟩, false⟩, ⟨⟨0, 6⟩, ⟨8, 3, some ['f'], some ['b']⟩, false⟩]

theorem not_splitsPair_sampleTokens :
    ∀ t ∈ sampleTokens, ¬ (LineTable.ofText sampleText).splitsPair t.position := by
  have hfirst : (LineTable.ofText sampleText).lines[0]? =
      some (.ofText 0 "T(\x60a  b\x60)".toList) := rfl
  have hones : (Line.ofText 0 "T(\x60a  b\x60)".toList).content.all (unitsOf · = 1) := by decide
  have hnarrow : ∀ c ∈ (Line.ofText 0 "T(\x60a  b\x60)".toList).content, unitsOf c = 1 :=
    fun c hc ↦ of_decide_eq_true (List.all_eq_true.1 hones c hc)
  have hall : ∀ p : Position, p.line = 0 → ¬ (LineTable.ofText sampleText).splitsPair p := by
    rintro p hp ⟨l, a, c, b, hl, hc, hlt, hlt'⟩
    rw [hp, hfirst, Option.some.injEq] at hl
    subst hl
    rw [hnarrow c (by rw [hc]; simp)] at hlt'
    omega
  simp only [sampleTokens, List.forall_mem_cons]
  exact ⟨hall _ rfl, hall _ rfl, nofun⟩

theorem Source.placeOf?_carryTokens_sampleText :
    ∃ q o, squeeze ['T'] sampleText sampleTree = .ok q ∧
      (Edit.spliceOrigins sampleText.size q.edits)[2]? = some o ∧
      placeOf? (carryTokens sampleText q.code q.edits sampleTokens)
          ((LineTable.ofText q.code).positionOf 2) =
        placeOf? sampleTokens ((LineTable.ofText sampleText).positionOf o) := by
  obtain ⟨edits, hs⟩ := squeeze_sampleText
  obtain ⟨q, hq, h⟩ := placeOf?_carryTokens ['T'] wellFormed_sampleTree
    (show Sorted sampleTokens by decide) (by decide) (by decide) not_splitsPair_sampleTokens
  rw [hs] at hq
  cases hq
  obtain ⟨o, ho, hp⟩ := h 2 'b' rfl (by cbv)
  exact ⟨_, o, hs, ho, hp⟩

end TemplateSqueeze
