import TemplateSqueeze.Edit.Basic
import TemplateSqueeze.Proofs.Text.Cut

namespace TemplateSqueeze.Edit

open Text

variable {input : Text} {size index a : Nat} {before : Option Edit} {e : Edit} {es : List Edit}

theorem fault?_eq_none_iff : e.fault? size index before = none ↔
    e.start ≤ e.stop ∧ e.stop ≤ size ∧ (∀ b, before = some b → b.stop ≤ e.start) ∧
      e.origins.length = e.replacement.size ∧ ∀ o ∈ e.origins, o < size := by
  have hbefore : before.filter (e.start < ·.stop) = none ↔
      ∀ b, before = some b → b.stop ≤ e.start := by
    simp [Option.filter_eq_none_iff]
  rw [← hbefore, fault?]
  split
  · next hreversed => exact iff_of_false nofun fun h ↦ Nat.not_le_of_lt hreversed h.1
  · next hordered =>
    split
    · next hbeyond => exact iff_of_false nofun fun h ↦ Nat.not_le_of_lt hbeyond h.2.1
    · next hinside =>
      split
      · next b hb => simp [hb]
      · next hb =>
        split
        · next hcount => simp [hcount]
        · next hcount =>
          simp only [not_not] at hcount
          simp [hb, hcount, Nat.not_lt.1 hordered, Nat.not_lt.1 hinside]

/-- Edits that may stand behind an offset. -/
inductive Accepted (size : Nat) : Nat → List Edit → Prop
  | nil {a : Nat} : a ≤ size → Accepted size a []
  | cons {a : Nat} {e : Edit} {es : List Edit} : a ≤ e.start → e.start ≤ e.stop →
    e.origins.length = e.replacement.size → (∀ o ∈ e.origins, o < size) →
    Accepted size e.stop es → Accepted size a (e :: es)

theorem Accepted.le (h : Accepted size a es) : a ≤ size := by
  induction h with
  | nil hle => exact hle
  | cons hstart hstop _ _ _ ih => exact Nat.le_trans hstart (Nat.le_trans hstop ih)

theorem validateFrom_eq_ok_iff (ha : a ≤ size)
    (hb : ∀ n, (∀ b, before = some b → b.stop ≤ n) ↔ a ≤ n) :
    validateFrom size index before es = .ok () ↔ Accepted size a es := by
  -- The edit before matters by its stop alone, and `a` stands for that.
  induction es generalizing a before index with
  | nil => exact ⟨fun _ ↦ .nil ha, fun _ ↦ rfl⟩
  | cons e es ih =>
    have hnext (hstop : e.stop ≤ size) : validateFrom size (index + 1) (some e) es = .ok () ↔
        Accepted size e.stop es := by
      apply ih hstop
      intro n
      simp
    rw [validateFrom_cons_eq_ok_iff, fault?_eq_none_iff, hb]
    constructor
    · rintro ⟨⟨hle, hstop, hbefore, hcount, horigins⟩, hes⟩
      exact .cons hbefore hle hcount horigins ((hnext hstop).1 hes)
    · intro h
      cases h with
      | cons hstart hle hcount horigins hes =>
        exact ⟨⟨hle, hes.le, hstart, hcount, horigins⟩, (hnext hes.le).2 hes⟩

theorem validate_eq_ok_iff : validate size es = .ok () ↔ Accepted size 0 es := by
  apply validateFrom_eq_ok_iff (Nat.zero_le size)
  intro n
  simp

theorem Accepted.exists_splice (h : Accepted input.size a es) (ha : input.IsBoundary a)
    (hb : ∀ e ∈ es, input.IsBoundary e.start ∧ input.IsBoundary e.stop) :
    ∃ output, spliceFrom input a es = some output ∧
      (originsFrom input.size a es).length = output.size := by
  induction h with
  | @nil a hle =>
    obtain ⟨t, ht⟩ := exists_slice? ha (isBoundary_size input) hle
    refine ⟨t, by rw [spliceFrom, ht], ?_⟩
    have hsize := size_of_slice? ht
    rw [originsFrom, List.length_range']
    omega
  | @cons a e es hstart hle hcount _ hes ih =>
    rw [List.forall_mem_cons] at hb
    obtain ⟨kept, hslice⟩ := exists_slice? ha hb.1.1 hstart
    obtain ⟨rest, hrest, hlength⟩ := ih hb.1.2 hb.2
    refine ⟨_, spliceFrom_cons_eq_some.2 ⟨kept, rest, hslice, hrest, rfl⟩, ?_⟩
    have hsize := size_of_slice? hslice
    rw [originsFrom, List.length_append, List.length_append, List.length_range', hcount, hlength,
      size_append, size_append]
    omega

end TemplateSqueeze.Edit
