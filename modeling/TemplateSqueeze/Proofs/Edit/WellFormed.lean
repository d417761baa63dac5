import Mathlib.Order.Bounds.Defs
import TemplateSqueeze.Proofs.Edit.Accepted

namespace TemplateSqueeze.Edit

variable {size index a : Nat} {before : Option Edit} {d e : Edit} {es front back : List Edit}
  {fault : EditError}

/-- Edits that stay inside an input, account for what they put in and keep clear of each other, in
their order. -/
structure WellFormed (size : Nat) (es : List Edit) : Prop where
  start_le_stop : ∀ e ∈ es, e.start ≤ e.stop
  stop_le_size : ∀ e ∈ es, e.stop ≤ size
  length_origins : ∀ e ∈ es, e.origins.length = e.replacement.size
  origin_lt_size : ∀ e ∈ es, ∀ o ∈ e.origins, o < size
  apart : es.Pairwise fun d e ↦ d.stop ≤ e.start

theorem WellFormed.sublist (h : WellFormed size es) (hs : front.Sublist es) :
    WellFormed size front where
  start_le_stop e he := h.start_le_stop e (hs.subset he)
  stop_le_size e he := h.stop_le_size e (hs.subset he)
  length_origins e he := h.length_origins e (hs.subset he)
  origin_lt_size e he := h.origin_lt_size e (hs.subset he)
  apart := h.apart.sublist hs

theorem accepted_iff : Accepted size a es ↔
    a ≤ size ∧ (∀ e ∈ es, a ≤ e.start) ∧ WellFormed size es := by
  constructor
  · intro h
    refine ⟨h.le, ?_⟩
    induction h with
    | nil => exact ⟨nofun, nofun, nofun, nofun, nofun, .nil⟩
    | @cons a e es hstart hstop hcount horigins hes ih =>
      obtain ⟨hbehind, hform⟩ := ih
      refine ⟨List.forall_mem_cons.2 ⟨hstart, fun d hd ↦ ?_⟩, ?_⟩
      · exact Nat.le_trans hstart (Nat.le_trans hstop (hbehind d hd))
      · exact {
          start_le_stop := List.forall_mem_cons.2 ⟨hstop, hform.start_le_stop⟩
          stop_le_size := List.forall_mem_cons.2 ⟨hes.le, hform.stop_le_size⟩
          length_origins := List.forall_mem_cons.2 ⟨hcount, hform.length_origins⟩
          origin_lt_size := List.forall_mem_cons.2 ⟨horigins, hform.origin_lt_size⟩
          apart := List.pairwise_cons.2 ⟨hbehind, hform.apart⟩ }
  · rintro ⟨hle, hstart, hform⟩
    induction es generalizing a with
    | nil => exact .nil hle
    | cons e es ih =>
      have he : e ∈ e :: es := List.mem_cons_self
      obtain ⟨hbehind, -⟩ := List.pairwise_cons.1 hform.apart
      apply Accepted.cons (hstart e he) (hform.start_le_stop e he) (hform.length_origins e he)
        (hform.origin_lt_size e he)
      exact ih (hform.stop_le_size e he) hbehind (hform.sublist (List.sublist_cons_self e es))

theorem validate_eq_ok_iff_wellFormed : validate size es = .ok () ↔ WellFormed size es := by
  rw [validate_eq_ok_iff, accepted_iff]
  constructor
  · exact fun h ↦ h.2.2
  · exact fun h ↦ ⟨Nat.zero_le size, fun e _ ↦ Nat.zero_le e.start, h⟩

/-- What is said of an edit, given the one before it. Each fault is found only where those above it
are not there. -/
inductive IsFault (size index : Nat) (before : Option Edit) (e : Edit) : EditError → Prop
  | reversed : e.stop < e.start → IsFault size index before e (.reversed index e.start e.stop)
  | beyondInput : e.start ≤ e.stop → size < e.stop →
    IsFault size index before e (.beyondInput index e.stop size)
  | overlapping {d : Edit} : e.start ≤ e.stop → e.stop ≤ size → before = some d →
    e.start < d.stop → IsFault size index before e (.overlapping d.start d.stop e.start e.stop)
  | originCount : e.start ≤ e.stop → e.stop ≤ size → (∀ d, before = some d → d.stop ≤ e.start) →
    e.origins.length ≠ e.replacement.size →
    IsFault size index before e (.originCount index e.origins.length e.replacement.size)
  | originBeyondInput {o : Nat} {inside rest : List Nat} : e.start ≤ e.stop → e.stop ≤ size →
    (∀ d, before = some d → d.stop ≤ e.start) → e.origins.length = e.replacement.size →
    e.origins = inside ++ o :: rest → (∀ x ∈ inside, x < size) → size ≤ o →
    IsFault size index before e (.originBeyondInput index o size)

theorem isFault_of_fault? (h : e.fault? size index before = some fault) :
    IsFault size index before e fault := by
  rw [fault?] at h
  split at h
  · next hreversed =>
    cases h
    exact .reversed hreversed
  · next hordered =>
    rw [Nat.not_lt] at hordered
    split at h
    · next hbeyond =>
      cases h
      exact .beyondInput hordered hbeyond
    · next hinside =>
      rw [Nat.not_lt] at hinside
      split at h
      · next d hd =>
        cases h
        obtain ⟨hbefore, hover⟩ := Option.filter_eq_some_iff.1 hd
        exact .overlapping hordered hinside hbefore (of_decide_eq_true hover)
      · next hclear =>
        have hapart : ∀ d, before = some d → d.stop ≤ e.start := by
          simpa [Option.filter_eq_none_iff] using hclear
        split at h
        · next hcount =>
          cases h
          exact .originCount hordered hinside hapart hcount
        · next hcount =>
          rw [not_not] at hcount
          obtain ⟨o, ho, rfl⟩ := Option.map_eq_some_iff.1 h
          obtain ⟨hout, front, rest, hsplit, hin⟩ := List.find?_eq_some_iff_append.1 ho
          exact .originBeyondInput hordered hinside hapart hcount hsplit
            (by simpa using hin) (of_decide_eq_true hout)

theorem fault?_of_isFault (h : IsFault size index before e fault) :
    e.fault? size index before = some fault := by
  have hclear (hapart : ∀ d, before = some d → d.stop ≤ e.start) :
      before.filter (e.start < ·.stop) = none := by
    simpa [Option.filter_eq_none_iff] using hapart
  rw [fault?]
  cases h with
  | reversed hreversed => rw [if_pos hreversed]
  | beyondInput hordered hbeyond => rw [if_neg (Nat.not_lt.2 hordered), if_pos hbeyond]
  | @overlapping d hordered hinside hbefore hover =>
    have hd : before.filter (e.start < ·.stop) = some d :=
      Option.filter_eq_some_iff.2 ⟨hbefore, decide_eq_true hover⟩
    rw [if_neg (Nat.not_lt.2 hordered), if_neg (Nat.not_lt.2 hinside), hd]
  | originCount hordered hinside hapart hcount =>
    rw [if_neg (Nat.not_lt.2 hordered), if_neg (Nat.not_lt.2 hinside), hclear hapart]
    exact if_pos hcount
  | @originBeyondInput o inside rest hordered hinside hapart hcount hsplit hin hout =>
    have ho : e.origins.find? (size ≤ ·) = some o :=
      List.find?_eq_some_iff_append.2
        ⟨decide_eq_true hout, inside, rest, hsplit, by simpa using hin⟩
    rw [if_neg (Nat.not_lt.2 hordered), if_neg (Nat.not_lt.2 hinside), hclear hapart]
    simp [hcount, ho]

theorem fault?_eq_some_iff : e.fault? size index before = some fault ↔
    IsFault size index before e fault := ⟨isFault_of_fault?, fault?_of_isFault⟩

theorem getLast?_cons_or (e : Edit) (front : List Edit) (before : Option Edit) :
    (e :: front).getLast?.or before = front.getLast?.or (some e) := by
  rw [List.getLast?_cons]
  cases front.getLast? <;> rfl

theorem validateFrom_eq_error_iff : validateFrom size index before es = .error fault ↔
    ∃ front e back, es = front ++ e :: back ∧ validateFrom size index before front = .ok () ∧
      IsFault size (index + front.length) (front.getLast?.or before) e fault := by
  induction es generalizing index before with
  | nil => simp [validateFrom]
  | cons e es ih =>
    rw [validateFrom_cons_eq_error_iff, ih]
    constructor
    · rintro (hfault | ⟨hnone, front, e', back, rfl, hok, hf⟩)
      · exact ⟨[], e, es, rfl, rfl, fault?_eq_some_iff.1 hfault⟩
      · refine ⟨e :: front, e', back, rfl, validateFrom_cons_eq_ok_iff.2 ⟨hnone, hok⟩, ?_⟩
        rwa [getLast?_cons_or, List.length_cons, ← Nat.add_assoc, Nat.add_right_comm]
    · rintro ⟨front, e', back, hsplit, hok, hf⟩
      cases front with
      | nil =>
        obtain ⟨rfl, rfl⟩ := List.cons.inj hsplit
        exact .inl (fault?_eq_some_iff.2 hf)
      | cons d front =>
        obtain ⟨rfl, rfl⟩ := List.cons.inj hsplit
        obtain ⟨hnone, hok⟩ := validateFrom_cons_eq_ok_iff.1 hok
        rw [getLast?_cons_or, List.length_cons, ← Nat.add_assoc, Nat.add_right_comm] at hf
        exact .inr ⟨hnone, front, e', back, rfl, hok, hf⟩

theorem validate_eq_error_iff : validate size es = .error fault ↔
    ∃ front e back, es = front ++ e :: back ∧ WellFormed size front ∧
      IsFault size front.length front.getLast? e fault := by
  simp only [validate, validateFrom_eq_error_iff, Nat.zero_add, Option.or_none,
    ← validate_eq_ok_iff_wellFormed]

theorem not_wellFormed_of_isFault (h : WellFormed size front)
    (hf : IsFault size front.length front.getLast? e fault) : ¬ WellFormed size (front ++ [e]) := by
  intro hform
  have herror : validate size (front ++ [e]) = .error fault :=
    validate_eq_error_iff.2 ⟨front, e, [], rfl, h, hf⟩
  rw [validate_eq_ok_iff_wellFormed.2 hform] at herror
  cases herror

/-- The well-formed lists are accepted, and no others. Of another list the error names the first
edit up to which the list is not well formed, and the first fault that this edit has. -/
theorem validate_wellFormed (size : Nat) (es : List Edit) :
    (validate size es = .ok () ↔ WellFormed size es) ∧
    ∀ fault, validate size es = .error fault ↔
      ∃ i e, IsLeast {k | k < es.length ∧ ¬ WellFormed size (es.take (k + 1))} i ∧
        es[i]? = some e ∧ IsFault size i (es.take i).getLast? e fault := by
  refine ⟨validate_eq_ok_iff_wellFormed, fun fault ↦ ?_⟩
  rw [validate_eq_error_iff]
  constructor
  · rintro ⟨front, e, back, rfl, hform, hf⟩
    have hfront : (front ++ e :: back).take front.length = front := List.take_left
    refine ⟨front.length, e, ⟨⟨by simp, ?_⟩, ?_⟩, by simp, by rwa [hfront]⟩
    · rw [List.take_length_add_append]
      exact not_wellFormed_of_isFault hform hf
    · rintro k ⟨-, hk⟩
      -- A shorter beginning is one of the part in front of the fault.
      by_contra hlt
      apply hk
      rw [List.take_append_of_le_length (by omega)]
      exact hform.sublist (List.take_sublist (k + 1) front)
  · rintro ⟨i, e, ⟨⟨hi, -⟩, hleast⟩, he, hf⟩
    have hlength : (es.take i).length = i := List.length_take_of_le (Nat.le_of_lt hi)
    have hsplit : es = es.take i ++ e :: es.drop (i + 1) := by
      obtain ⟨hi, rfl⟩ := List.getElem?_eq_some_iff.1 he
      rw [List.getElem_cons_drop, List.take_append_drop]
    refine ⟨es.take i, e, es.drop (i + 1), hsplit, ?_, by rwa [hlength]⟩
    cases i with
    | zero => exact ⟨nofun, nofun, nofun, nofun, .nil⟩
    | succ i =>
      by_contra hform
      exact Nat.not_succ_le_self i (hleast ⟨Nat.lt_of_succ_lt hi, hform⟩)

end TemplateSqueeze.Edit
