import Mathlib.Data.List.Basic
import TemplateSqueeze.Edit.Joint

namespace TemplateSqueeze

variable {startsLine : Nat → Bool} {origins : List Nat} {i x : Nat}

theorem mem_jointsFrom {offset : Nat} {before : Option Nat} :
    i ∈ jointsFrom startsLine offset before origins ↔
      ∃ k x, i = offset + k ∧ origins[k]? = some x ∧
        (startsLine i ∨ (if k = 0 then before else origins[k - 1]?).map (· + 1) ≠ some x) := by
  induction origins generalizing offset before with
  | nil => simp [jointsFrom]
  | cons y origins ih =>
    have hrest : i ∈ jointsFrom startsLine (offset + 1) (some y) origins ↔
        ∃ k x, i = offset + (k + 1) ∧ (y :: origins)[k + 1]? = some x ∧
          (startsLine i ∨ ((y :: origins)[k]?).map (· + 1) ≠ some x) := by
      rw [ih]
      refine exists_congr fun k ↦ exists_congr fun x ↦ ?_
      rw [Nat.add_assoc, Nat.add_comm 1 k]
      cases k <;> rfl
    rw [← Nat.or_exists_add_one]
    simp only [List.getElem?_cons_zero, Option.some.injEq, ↓reduceIte, Nat.add_zero,
      Nat.add_one_ne_zero, Nat.add_sub_cancel]
    rw [← hrest, jointsFrom]
    split
    · next h =>
      simp only [Bool.not_eq_eq_eq_not, Bool.not_true] at h
      constructor
      · exact .inr
      · rintro (⟨z, hi, hz, hor⟩ | h')
        · rw [hi, h.2, ← hz, h.1] at hor
          simp at hor
        · exact h'
    · next h =>
      rw [List.mem_cons]
      refine or_congr ⟨fun hi ↦ ⟨y, hi, rfl, ?_⟩, fun ⟨_, hi, _⟩ ↦ hi⟩ Iff.rfl
      subst hi
      by_contra hn
      simp only [not_or, Bool.not_eq_true, not_not, ne_eq] at hn
      exact h ⟨hn.2, by simp [hn.1]⟩

theorem mem_joints : i ∈ joints startsLine origins ↔ i < origins.length ∧
    (i = 0 ∨ startsLine i ∨
      ∀ x y, origins[i - 1]? = some x → origins[i]? = some y → x + 1 ≠ y) := by
  rw [joints, mem_jointsFrom]
  constructor
  · rintro ⟨k, x, rfl, hx, h⟩
    rw [Nat.zero_add] at h ⊢
    refine ⟨(List.getElem?_eq_some_iff.1 hx).1, ?_⟩
    by_cases hk : k = 0
    · exact .inl hk
    · rw [if_neg hk] at h
      refine .inr (h.imp_right fun h y z hy hz ↦ ?_)
      rw [hx] at hz
      cases hz
      rw [hy] at h
      exact fun he ↦ h (congrArg some he)
  · rintro ⟨hi, h⟩
    refine ⟨i, origins[i], (Nat.zero_add i).symm, List.getElem?_eq_getElem hi, ?_⟩
    rcases h with rfl | h | h
    · exact .inr (by simp)
    · exact .inl h
    · refine .inr ?_
      split
      · simp
      · intro hn
        obtain ⟨x, hx, hx'⟩ := Option.map_eq_some_iff.1 hn
        exact h x _ hx (List.getElem?_eq_getElem hi) hx'

theorem pairwise_jointsFrom (offset : Nat) (before : Option Nat) :
    (jointsFrom startsLine offset before origins).Pairwise (· < ·) := by
  induction origins generalizing offset before with
  | nil => exact List.Pairwise.nil
  | cons x origins ih =>
    rw [jointsFrom]
    split
    · exact ih _ _
    · refine List.pairwise_cons.2 ⟨fun i hi ↦ ?_, ih _ _⟩
      obtain ⟨k, -, rfl, -⟩ := mem_jointsFrom.1 hi
      omega

theorem pairwise_joints : (joints startsLine origins).Pairwise (· < ·) := pairwise_jointsFrom _ _

theorem exists_joint (startsLine : Nat → Bool) (hi : i < origins.length) :
    ∃ a ∈ joints startsLine origins, a ≤ i ∧
      ∀ k, a < k → k ≤ i → k ∉ joints startsLine origins := by
  induction i with
  | zero => exact ⟨0, mem_joints.2 ⟨hi, .inl rfl⟩, Nat.le_refl _, fun k h h' ↦ by omega⟩
  | succ i ih =>
    by_cases hj : i + 1 ∈ joints startsLine origins
    · exact ⟨i + 1, hj, Nat.le_refl _, fun k h h' ↦ by omega⟩
    · obtain ⟨a, ha, hle, hk⟩ := ih (by omega)
      refine ⟨a, ha, by omega, fun k h h' ↦ ?_⟩
      rcases Nat.lt_or_eq_of_le h' with h' | rfl
      · exact hk k h (by omega)
      · exact hj

theorem of_not_mem_joints (hi : i < origins.length) (h : i ∉ joints startsLine origins) :
    startsLine i = false ∧ ∃ x, origins[i - 1]? = some x ∧ origins[i]? = some (x + 1) := by
  have hn : ¬ _ := fun h' ↦ h (mem_joints.2 ⟨hi, h'⟩)
  simp only [not_or, not_forall, not_not] at hn
  obtain ⟨-, hl, x, y, hx, hy, rfl⟩ := hn
  exact ⟨Bool.eq_false_iff.2 hl, x, hx, hy⟩

theorem getElem?_origins_of_run {a b o : Nat} (ho : origins[a]? = some o)
    (hrun : ∀ i, a < i → i ≤ b → ∃ x, origins[i - 1]? = some x ∧ origins[i]? = some (x + 1)) :
    ∀ k, a + k ≤ b → origins[a + k]? = some (o + k) := by
  intro k hk
  induction k with
  | zero => exact ho
  | succ k ih =>
    obtain ⟨x, hx, hx'⟩ := hrun (a + (k + 1)) (by omega) hk
    rw [← Nat.add_assoc, Nat.add_sub_cancel, ih (by omega), Option.some.injEq] at hx
    rw [hx', ← hx, Nat.add_assoc]

theorem getElem?_settle {slots : Array (Option Nat)} {offset : Nat} :
    (settle slots offset origins)[x]? =
      slots[x]?.map fun slot ↦ slot.or ((origins.idxOf? x).map (offset + ·)) := by
  induction origins generalizing slots offset with
  | nil => simp [settle]
  | cons y origins ih =>
    rw [settle, ih, Array.getElem?_modify, List.idxOf?_cons]
    by_cases hxy : y = x
    · subst hxy
      rw [if_pos rfl, Option.map_map]
      refine congrArg (Option.map · _) (funext fun slot ↦ ?_)
      cases slot <;> simp
    · rw [if_neg hxy, if_neg (by simpa using hxy), Option.map_map]
      refine congrArg (Option.map · _) (funext fun slot ↦ ?_)
      refine congrArg (slot.or ·) (congrArg (Option.map · _) (funext fun k ↦ ?_))
      simp only [Function.comp_apply]
      omega

theorem getElem?_destinations {inputSize : Nat} (hx : x < inputSize) :
    (destinations inputSize origins)[x]? = some (origins.idxOf? x) := by
  rw [destinations, getElem?_settle, Array.getElem?_replicate, if_pos hx]
  cases origins.idxOf? x <;> simp

theorem getElem?_destinations_of_le {inputSize : Nat} (hx : inputSize ≤ x) :
    (destinations inputSize origins)[x]? = none := by
  rw [destinations, getElem?_settle, Array.getElem?_replicate, if_neg (by omega)]
  rfl

/-- The destination of an input byte is the least output byte that came from it. -/
theorem getElem?_destinations_eq_some {inputSize o : Nat} :
    (destinations inputSize origins)[x]? = some (some o) ↔
      x < inputSize ∧ origins[o]? = some x ∧ ∀ k < o, origins[k]? ≠ some x := by
  by_cases hx : x < inputSize
  · rw [getElem?_destinations hx, Option.some.injEq, List.idxOf?_eq_some_iff]
    constructor
    · rintro ⟨ho, he, hlt⟩
      refine ⟨hx, by rw [List.getElem?_eq_getElem ho]; exact congrArg some he, fun k hk h ↦ ?_⟩
      obtain ⟨hk', h⟩ := List.getElem?_eq_some_iff.1 h
      exact hlt k hk h
    · rintro ⟨-, ho, hlt⟩
      obtain ⟨ho, he⟩ := List.getElem?_eq_some_iff.1 ho
      exact ⟨ho, he, fun k hk h ↦ hlt k hk (by rw [List.getElem?_eq_getElem (by omega), h])⟩
  · rw [getElem?_destinations_of_le (by omega)]
    simp [hx]

end TemplateSqueeze
