import Mathlib
import TemplateSqueeze.Proofs.SourceMap.Choice
import TemplateSqueeze.Proofs.Text.Count

namespace TemplateSqueeze

open Text

variable {origins : List Nat} {inputSize x y j k : Nat}

theorem size_settle (slots : Array (Option Nat)) (offset : Nat) :
    (settle slots offset origins).size = slots.size := by
  induction origins generalizing slots offset with
  | nil => rfl
  | cons x origins ih =>
    rw [settle, ih]
    exact Array.size_modify

theorem size_destinations (inputSize : Nat) (origins : List Nat) :
    (destinations inputSize origins).size = inputSize := by
  rw [destinations, size_settle]
  exact Array.size_replicate

theorem destination_eq_some_iff (hx : x < inputSize) :
    (destinations inputSize origins)[x]? = some (some k) ↔
      IsLeast {k | origins[k]? = some x} k := by
  rw [getElem?_destinations_eq_some]
  constructor
  · intro ⟨_, hk, hfirst⟩
    refine ⟨hk, ?_⟩
    intro j hj
    apply Nat.le_of_not_lt
    intro hlt
    exact hfirst j hlt hj
  · intro ⟨hk, hleast⟩
    refine ⟨hx, hk, ?_⟩
    intro j hlt hj
    exact Nat.not_lt_of_le (hleast hj) hlt

theorem destination_eq_none_iff (hx : x < inputSize) :
    (destinations inputSize origins)[x]? = some none ↔ x ∉ origins := by
  rw [getElem?_destinations hx, Option.some_inj]
  exact List.idxOf?_eq_none_iff

theorem destination_lt (h : origins.Pairwise (· ≤ ·)) (hlt : x < y)
    (hx : (destinations inputSize origins)[x]? = some (some j))
    (hy : (destinations inputSize origins)[y]? = some (some k)) : j < k := by
  obtain ⟨_, hj, _⟩ := getElem?_destinations_eq_some.1 hx
  obtain ⟨_, hk, _⟩ := getElem?_destinations_eq_some.1 hy
  obtain ⟨hjl, rfl⟩ := List.getElem?_eq_some_iff.1 hj
  obtain ⟨hkl, rfl⟩ := List.getElem?_eq_some_iff.1 hk
  apply Nat.lt_of_not_le
  intro hle
  -- Were the later byte to go first, its origin would be no greater.
  rcases Nat.lt_or_eq_of_le hle with hkj | rfl
  · have := List.pairwise_iff_getElem.1 h k j hkl hjl hkj
    omega
  · exact Nat.lt_irrefl _ hlt

namespace LineTable

variable {t : Text} {p q : Position} {m n : Nat}

theorem offsetOf?_mono (h : ¬ q.precedes p) (hp : (ofText t).offsetOf? p = some m)
    (hq : (ofText t).offsetOf? q = some n) : m ≤ n := by
  have hm := isCaret_offsetOf? hp
  have hn := isCaret_offsetOf? hq
  rw [Position.precedes_iff] at h
  by_cases hline : p.line = q.line
  · rw [hline] at hm
    have hcolumn := (column_le_iff hp (hline ▸ hm)).2 (Nat.le_refl m)
    exact (column_le_iff hq hm).1 (by omega)
  · apply Nat.le_of_not_lt
    intro hlt
    apply not_precedes_positionOf t (Nat.le_of_lt hlt)
    rw [Position.precedes_iff, (offsetOf?_positionOf_caret hm).1,
      (offsetOf?_positionOf_caret hn).1]
    omega

end LineTable

namespace SourceMap

variable {t t' u u' : Token}

theorem not_precedes_of_moved? (input output : Text) (h : origins.Pairwise (· ≤ ·))
    (hle : ¬ u.position.precedes t.position)
    (ht : (Change.mk (.ofText input) (.ofText output) inputSize origins).moved?
      (destinations inputSize origins) t = some t')
    (hu : (Change.mk (.ofText input) (.ofText output) inputSize origins).moved?
      (destinations inputSize origins) u = some u') : ¬ u'.position.precedes t'.position := by
  rw [Change.moved?_eq, Option.map_eq_some_iff] at ht hu
  obtain ⟨_, ht, rfl⟩ := ht
  obtain ⟨_, hu, rfl⟩ := hu
  obtain ⟨x, j, hx, hxlt, hj, hjfirst, rfl⟩ := Change.arrival?_eq_some.1 ht
  obtain ⟨y, k, hy, hylt, hk, hkfirst, rfl⟩ := Change.arrival?_eq_some.1 hu
  have hxj := getElem?_destinations_eq_some.2 ⟨hxlt, hj, hjfirst⟩
  have hyk := getElem?_destinations_eq_some.2 ⟨hylt, hk, hkfirst⟩
  apply LineTable.not_precedes_positionOf
  rcases Nat.lt_or_eq_of_le (LineTable.offsetOf?_mono hle hx hy) with hlt | rfl
  · exact Nat.le_of_lt (destination_lt h hlt hxj hyk)
  · rw [hxj] at hyk
    cases hyk
    exact Nat.le_refl j

end SourceMap

/-- Every input byte has the least output byte that came from it for a destination, and none if no
byte did. If origins never decrease, destinations grow with the bytes, and tokens that move with
their bytes stay in order. -/
theorem destinations_least (inputSize : Nat) (origins : List Nat) :
    (destinations inputSize origins).size = inputSize ∧
    (∀ x < inputSize, ∀ k, (destinations inputSize origins)[x]? = some (some k) ↔
      IsLeast {k | origins[k]? = some x} k) ∧
    (∀ x < inputSize, (destinations inputSize origins)[x]? = some none ↔ x ∉ origins) ∧
    (origins.Pairwise (· ≤ ·) →
      (∀ x y j k : Nat, x < y → (destinations inputSize origins)[x]? = some (some j) →
        (destinations inputSize origins)[y]? = some (some k) → j < k) ∧
      ∀ (input output : Text) (t u t' u' : SourceMap.Token),
        let c : SourceMap.Change := ⟨.ofText input, .ofText output, inputSize, origins⟩
        ¬ u.position.precedes t.position →
        c.moved? (destinations inputSize origins) t = some t' →
        c.moved? (destinations inputSize origins) u = some u' →
        ¬ u'.position.precedes t'.position) := by
  refine ⟨size_destinations inputSize origins, ?_, ?_, ?_⟩
  · intro x hx k
    exact destination_eq_some_iff hx
  · intro x hx
    exact destination_eq_none_iff hx
  · intro hsorted
    constructor
    · intro x y j k hlt hx hy
      exact destination_lt hsorted hlt hx hy
    · intro input output t u t' u' c hle ht hu
      exact SourceMap.not_precedes_of_moved? input output hsorted hle ht hu

/-- Byte 1 is gone, two output bytes came from byte 2, and one from behind the input. The tokens on
bytes 2 and 3 move. -/
theorem destinations_least_repeated :
    let c : SourceMap.Change := ⟨.ofText "abcd".toList, .ofText "accd;".toList, 4, [0, 2, 2, 3, 7]⟩
    destinations 4 c.origins = #[some 0, none, some 1, some 3] ∧
    IsLeast {k | c.origins[k]? = some 2} 1 ∧ 1 ∉ c.origins ∧
    c.origins.Pairwise (· ≤ ·) ∧ 1 < 3 ∧
    c.moved? (destinations 4 c.origins) ⟨⟨0, 2⟩, .nowhere, false⟩ =
      some ⟨⟨0, 1⟩, .nowhere, false⟩ ∧
    c.moved? (destinations 4 c.origins) ⟨⟨0, 3⟩, .nowhere, false⟩ =
      some ⟨⟨0, 3⟩, .nowhere, false⟩ ∧
    ¬ Position.precedes ⟨0, 3⟩ ⟨0, 1⟩ := by
  intro c
  have hslots : destinations 4 c.origins = #[some 0, none, some 1, some 3] := by decide
  have hsorted : c.origins.Pairwise (· ≤ ·) := by decide
  have hsecond : c.moved? (destinations 4 c.origins) ⟨⟨0, 2⟩, .nowhere, false⟩ =
      some ⟨⟨0, 1⟩, .nowhere, false⟩ := by cbv
  have hthird : c.moved? (destinations 4 c.origins) ⟨⟨0, 3⟩, .nowhere, false⟩ =
      some ⟨⟨0, 3⟩, .nowhere, false⟩ := by cbv
  obtain ⟨-, hsome, hnone, hordered⟩ := destinations_least 4 c.origins
  obtain ⟨hgrow, hkeep⟩ := hordered hsorted
  rw [hslots] at hsome hnone hgrow
  refine ⟨hslots, (hsome 2 (by decide) 1).1 rfl, (hnone 1 (by decide)).1 rfl, hsorted, ?_,
    hsecond, hthird, ?_⟩
  · exact hgrow 2 3 1 3 (by decide) rfl rfl
  · exact hkeep "abcd".toList "accd;".toList _ _ _ _ (by decide) hsecond hthird

end TemplateSqueeze
