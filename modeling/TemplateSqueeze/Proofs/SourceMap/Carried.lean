import TemplateSqueeze.Proofs.SourceMap.Fresh

namespace TemplateSqueeze.SourceMap

open Text Template Segment

variable {source : Text} {s pre post : Segment} {g : Glyph} {tokens : List Token} {a b o n : Nat}
  {t u : Token}

namespace Change

theorem moved?_eq_some :
    (ofSegment source s).moved? (destinations source.size s.origins) u = some t ↔
    ∃ m k, (LineTable.ofText source).offsetOf? u.position = some m ∧ m < source.size ∧
      s.origins[k]? = some m ∧ (∀ j < k, s.origins[j]? ≠ some m) ∧
        t = ⟨(LineTable.ofText s.text).positionOf k, u.place, false⟩ := by
  simp only [moved?, ofSegment, Option.bind_eq_bind, Option.bind_eq_some_iff, Option.pure_def,
    Option.some.injEq]
  constructor
  · rintro ⟨m, hm, _, hd, k, rfl, rfl⟩
    obtain ⟨hlt, hk, hfirst⟩ := getElem?_destinations_eq_some.1 hd
    exact ⟨m, k, hm, hlt, hk, hfirst, rfl⟩
  · rintro ⟨m, k, hm, hlt, hk, hfirst, rfl⟩
    exact ⟨m, hm, some k, getElem?_destinations_eq_some.2 ⟨hlt, hk, hfirst⟩, k, rfl, rfl⟩

theorem mem_candidates {c : Change} : t ∈ c.candidates tokens ↔
    (∃ u ∈ tokens, c.moved? (destinations c.inputSize c.origins) u = some t) ∨
      ∃ k o, (k, o) ∈ c.jointOrigins ∧ t = c.lookedUp tokens k o := by
  simp only [candidates, List.mem_append, List.mem_filterMap, List.mem_map, Prod.exists]
  refine or_congr_right (exists_congr fun k ↦ exists_congr fun o ↦ and_congr_right fun _ ↦ ?_)
  exact eq_comm

end Change

namespace Stretch

theorem exists_offset (h : Stretch source s a b o n) {x : Position}
    (hx : ¬ (LineTable.ofText source).splitsPair x)
    (hlo : ¬ x.precedes ((LineTable.ofText source).positionOf o))
    (hhi : ¬ ((LineTable.ofText source).positionOf n).precedes x) :
    ∃ m, (LineTable.ofText source).offsetOf? x = some m ∧ source.IsBoundary m ∧
      (LineTable.ofText source).positionOf m = x ∧ o ≤ m ∧ m ≤ n := by
  have hl := h.sourceLine
  obtain ⟨ho, hn⟩ := h.sourceBoundaries
  have hline : x.line = ((LineTable.ofText source).positionOf n).line := by
    rw [Position.precedes_iff] at hlo hhi
    omega
  obtain ⟨m, hm⟩ := LineTable.exists_offsetOf? hn hline
  obtain ⟨hb, hbl, heq⟩ := LineTable.positionOf_offsetOf? hx hm
  have hpos : (LineTable.ofText source).positionOf m = x := by
    refine heq.resolve_right fun ⟨hc, hcol⟩ ↦ ?_
    -- Not in the content, it would lie behind what shows at `n`.
    have hmn : m ≤ n := by
      by_contra hlt
      refine LineTable.positionOf_mono hn hb (by omega) ?_
      rw [Position.precedes_iff] at hhi ⊢
      omega
    have hle : ((LineTable.ofText source).positionOf n).line ≤
        ((LineTable.ofText source).positionOf m).line := by omega
    rw [LineTable.inContent_of_le hb hn hmn hle h.sourceContents.2] at hc
    cases hc
  refine ⟨m, hm, hb, hpos, ?_, ?_⟩
  · by_contra hlt
    rw [← hpos] at hlo
    exact hlo (LineTable.positionOf_precedes hb ho (by omega) (.inr h.sourceContents.1))
  · by_contra hlt
    rw [← hpos] at hhi
    exact hhi (LineTable.positionOf_precedes hn hb (by omega) (.inl h.sourceContents.2))

theorem exists_moved (h : Stretch source s a b o n) (hs : Faithful source 0 source.size s)
    (hu : ¬ (LineTable.ofText source).splitsPair u.position)
    (hlo : ((LineTable.ofText source).positionOf o).precedes u.position)
    (hhi : ¬ ((LineTable.ofText source).positionOf n).precedes u.position) :
    ∃ k, 0 < k ∧ a + k ≤ b ∧ s.text.IsBoundary (a + k) ∧ source.IsBoundary (o + k) ∧
      (LineTable.ofText source).positionOf (o + k) = u.position ∧
        (Change.ofSegment source s).moved? (destinations source.size s.origins) u =
          some ⟨(LineTable.ofText s.text).positionOf (a + k), u.place, false⟩ := by
  have hlo' : ¬ u.position.precedes ((LineTable.ofText source).positionOf o) :=
    fun hp ↦ Position.precedes_irrefl _ (Position.precedes_trans hlo hp)
  obtain ⟨m, hm, hb, hpos, hom, hmn⟩ := h.exists_offset hu hlo' hhi
  obtain ⟨k, rfl⟩ := Nat.exists_eq_add_of_le hom
  have hsum := h.sum
  have hk : 0 < k := by
    by_contra hk
    obtain rfl : k = 0 := by omega
    rw [← hpos] at hlo
    exact Position.precedes_irrefl _ hlo
  have ho := h.origins k (by omega)
  have hsize := (hs.bounds _ (List.mem_of_getElem? ho)).2
  refine ⟨k, hk, by omega, isBoundary_of_origin hs ho hb, hb, hpos,
    Change.moved?_eq_some.2 ⟨o + k, a + k, hm, hsize, ho, fun j hj hjo ↦ ?_, rfl⟩⟩
  -- The byte before already has a smaller origin, and origins are in order.
  have hprev := h.origins (k - 1) (by omega)
  obtain ⟨hj', hjo⟩ := List.getElem?_eq_some_iff.1 hjo
  obtain ⟨hp', hpo⟩ := List.getElem?_eq_some_iff.1 hprev
  rcases Nat.lt_or_eq_of_le (show j ≤ a + (k - 1) by omega) with hlt | rfl
  · have := List.pairwise_iff_getElem.1 hs.sorted_origins j _ hj' hp' hlt
    omega
  · omega

/-- Of the tokens that moved, the ones that show within a stretch come from its source part. -/
theorem exists_unmoved (h : Stretch source s a b o n) (hs : Faithful source 0 source.size s)
    (hu : ¬ (LineTable.ofText source).splitsPair u.position)
    (ht : (Change.ofSegment source s).moved? (destinations source.size s.origins) u = some t)
    (hlo : ¬ t.position.precedes ((LineTable.ofText s.text).positionOf a))
    (hhi : ¬ ((LineTable.ofText s.text).positionOf b).precedes t.position) :
    ∃ k, a + k ≤ b ∧ s.text.IsBoundary (a + k) ∧ source.IsBoundary (o + k) ∧
      t = ⟨(LineTable.ofText s.text).positionOf (a + k), u.place, false⟩ ∧
        (LineTable.ofText source).positionOf (o + k) = u.position := by
  obtain ⟨m, j, hm, -, hj, -, rfl⟩ := Change.moved?_eq_some.1 ht
  obtain ⟨hb, hbl, heq⟩ := LineTable.positionOf_offsetOf? hu hm
  have hjb := isBoundary_of_origin hs hj hb
  have haj : a ≤ j := by
    by_contra hlt
    exact hlo (LineTable.positionOf_precedes hjb h.boundaries.1 (by omega) (.inr h.contents.1))
  have hjle : j ≤ b := by
    by_contra hlt
    exact hhi (LineTable.positionOf_precedes h.boundaries.2 hjb (by omega) (.inl h.contents.2))
  obtain ⟨k, rfl⟩ := Nat.exists_eq_add_of_le haj
  rw [h.origins k hjle, Option.some.injEq] at hj
  subst hj
  refine ⟨k, hjle, hjb, hb, rfl, heq.resolve_right fun ⟨hc, _⟩ ↦ ?_⟩
  have hsum := h.sum
  rw [LineTable.inContent_between h.sourceBoundaries.1 hb h.sourceBoundaries.2 (by omega)
    (by omega) h.sourceLine h.sourceContents.2] at hc
  cases hc

theorem lookedUp_mem_candidates (h : Stretch source s a b o n) (tokens : List Token) :
    (Change.ofSegment source s).lookedUp tokens a o ∈
      (Change.ofSegment source s).candidates tokens :=
  Change.mem_candidates.2 (.inr ⟨a, o, h.mem_jointOrigins, rfl⟩)

theorem mem_candidates_of_moved
    (hu : u ∈ tokens)
    (h : (Change.ofSegment source s).moved? (destinations source.size s.origins) u = some t) :
    t ∈ (Change.ofSegment source s).candidates tokens :=
  Change.mem_candidates.2 (.inl ⟨u, hu, h⟩)

theorem governs_candidates (h : Stretch source s a b o n) (hs : Faithful source 0 source.size s)
    (hpairs : ∀ u ∈ tokens, ¬ (LineTable.ofText source).splitsPair u.position)
    (ht : Governs ((Change.ofSegment source s).candidates tokens)
      ((LineTable.ofText s.text).positionOf b) t) :
    (∃ u, Governs tokens ((LineTable.ofText source).positionOf n) u ∧ t.place = u.place) ∨
      t = (Change.ofSegment source s).lookedUp tokens a o ∧
        ∀ u ∈ tokens, ((LineTable.ofText source).positionOf o).precedes u.position →
          ((LineTable.ofText source).positionOf n).precedes u.position := by
  have hsum := h.sum
  have ha := ht.closest _ (h.lookedUp_mem_candidates tokens) h.positionOf_le
  rcases Change.mem_candidates.1 ht.mem with ⟨u, hu, hmoved⟩ | ⟨k, o', hk, rfl⟩
  · obtain ⟨k, hk, hkb, hob, rfl, hpos⟩ := h.exists_unmoved hs (hpairs u hu) hmoved ha ht.le
    refine .inl ⟨u, ⟨hu, ?_, fun v hv hle hlt ↦ ?_⟩, rfl⟩
    · rw [← hpos]
      exact LineTable.positionOf_mono hob h.sourceBoundaries.2 (by omega)
    · have hlo : ((LineTable.ofText source).positionOf o).precedes v.position := by
        refine Position.precedes_of_le_of_precedes ?_ hlt
        rw [← hpos]
        exact LineTable.positionOf_mono h.sourceBoundaries.1 hob (by omega)
      obtain ⟨j, -, hj, hjb, hojb, hjpos, hjm⟩ := h.exists_moved hs (hpairs v hv) hlo hle
      have hkj : k < j := by
        by_contra hge
        rw [← hpos, ← hjpos] at hlt
        exact LineTable.positionOf_mono hojb hob (by omega) hlt
      refine ht.closest _ (mem_candidates_of_moved hv hjm)
        (LineTable.positionOf_mono hjb h.boundaries.2 hj) ?_
      have hc := LineTable.inContent_between h.boundaries.1 hjb h.boundaries.2 (by omega) hj
        h.line h.contents.2
      exact LineTable.positionOf_precedes hkb hjb (by omega) (.inr hc)
  · obtain ⟨rfl, rfl⟩ := h.eq_of_mem_jointOrigins hs hk ht.le ha
    refine .inr ⟨rfl, fun v hv hlo ↦ ?_⟩
    by_contra hle
    obtain ⟨j, hj₀, hj, hjb, -, -, hjm⟩ := h.exists_moved hs (hpairs v hv) hlo hle
    exact ht.closest _ (mem_candidates_of_moved hv hjm)
      (LineTable.positionOf_mono hjb h.boundaries.2 hj)
      (LineTable.positionOf_precedes h.boundaries.1 hjb (by omega) (.inl h.contents.1))

end Stretch

theorem placeOf?_of_governs (hs : Sorted tokens) (hr : ∀ t ∈ tokens, t.ranged = false)
    {p : Position} (hu : ∀ t u, Governs tokens p t → Governs tokens p u → t.place = u.place)
    (ht : Governs tokens p t) : placeOf? tokens p = (some t.place).filter (·.source.isSome) := by
  obtain ⟨u, hl⟩ := exists_lookup? hs ht.mem ht.le
  have hg := governs_of_lookup? hs hl
  rw [placeOf?, hl, Option.map_some, Token.placeAt_of_not_ranged (hr u hg.mem), hu u t hg ht]

theorem ranged_of_mem_candidates {c : Change} (h : t ∈ c.candidates tokens) : t.ranged = false := by
  rcases Change.mem_candidates.1 h with ⟨u, -, hm⟩ | ⟨k, o, -, rfl⟩
  · simp only [Change.moved?, Option.bind_eq_bind, Option.bind_eq_some_iff, Option.pure_def,
      Option.some.injEq] at hm
    obtain ⟨m, -, d, -, k, -, rfl⟩ := hm
    rfl
  · rfl

/-- The composition of an old map with the change: the new map gives the end of a stretch the place
that the old one gave its origin. -/
theorem placeOf?_settled (h : Stretch source s a b o n) (hs : Faithful source 0 source.size s)
    (hsorted : Sorted tokens) (hr : ∀ t ∈ tokens, t.ranged = false)
    (hpairs : ∀ t ∈ tokens, ¬ (LineTable.ofText source).splitsPair t.position)
    (hu : ∀ t u, Governs tokens ((LineTable.ofText source).positionOf n) t →
      Governs tokens ((LineTable.ofText source).positionOf n) u → t.place = u.place) :
    placeOf? (settled ((Change.ofSegment source s).candidates tokens))
        ((LineTable.ofText s.text).positionOf b) =
      placeOf? tokens ((LineTable.ofText source).positionOf n) := by
  obtain ⟨t, hl⟩ := exists_lookup?_settled (h.lookedUp_mem_candidates tokens) h.positionOf_le
  have hg := governs_of_lookup?_settled hl
  rw [placeOf?, hl, Option.map_some, Token.placeAt_of_not_ranged (ranged_of_mem_candidates hg.mem)]
  rcases h.governs_candidates hs hpairs hg with ⟨u, hgu, hp⟩ | ⟨rfl, hnone⟩
  · rw [placeOf?_of_governs hsorted hr hu hgu, hp]
  · have hmono := LineTable.positionOf_mono h.sourceBoundaries.1 h.sourceBoundaries.2
      (by have := h.sum; have := h.le; omega)
    simp only [Change.lookedUp, Change.ofSegment]
    split
    · next u hl' =>
      have hgu := governs_of_lookup? hsorted hl'
      rw [Token.placeAt_of_not_ranged (hr u hgu.mem),
        placeOf?_of_governs hsorted hr hu (hgu.of_le hmono hnone)]
    · next hl' =>
      rw [placeOf?]
      cases hn : lookup? tokens ((LineTable.ofText source).positionOf n) with
      | none => rfl
      | some u =>
        have hgu := governs_of_lookup? hsorted hn
        obtain ⟨v, hv⟩ := exists_lookup? hsorted hgu.mem fun hp ↦ hgu.le (hnone u hgu.mem hp)
        rw [hl'] at hv
        cases hv

end TemplateSqueeze.SourceMap
