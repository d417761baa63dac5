import Mathlib
import TemplateSqueeze.Proofs.Edit.WellFormed

namespace TemplateSqueeze.Edit

open Text

variable {input output : Text} {size a b i j k x y : Nat} {e : Edit} {es front back : List Edit}

def added (es : List Edit) : Nat := (es.map fun e ↦ e.replacement.size).sum

def removed (es : List Edit) : Nat := (es.map fun e ↦ e.stop - e.start).sum

@[simp] theorem added_nil : added [] = 0 := rfl

@[simp] theorem removed_nil : removed [] = 0 := rfl

@[simp] theorem added_cons (e : Edit) (es : List Edit) :
    added (e :: es) = e.replacement.size + added es := rfl

@[simp] theorem removed_cons (e : Edit) (es : List Edit) :
    removed (e :: es) = e.stop - e.start + removed es := rfl

@[simp] theorem added_append (front back : List Edit) :
    added (front ++ back) = added front + added back := by
  simp [added]

@[simp] theorem removed_append (front back : List Edit) :
    removed (front ++ back) = removed front + removed back := by
  simp [removed]

/-- Byte `i` of the spliced text lies in the copy of a gap, as input byte `x`. The gap is behind all
edits of `front` and before all of `back`. -/
def CopiesAt (size : Nat) (es : List Edit) (i x : Nat) : Prop :=
  ∃ front back, es = front ++ back ∧ (∀ e ∈ front, e.stop ≤ x) ∧ (∀ e ∈ back, x < e.start) ∧
    x < size ∧ i + removed front = x + added front

def PutsAt (es : List Edit) (e : Edit) (i k : Nat) : Prop :=
  ∃ front back, es = front ++ e :: back ∧ k < e.replacement.size ∧
    i + removed front = e.start + added front + k

theorem WellFormed.add_removed_le (h : WellFormed size es) (ha : ∀ e ∈ es, a ≤ e.start)
    (hb : ∀ e ∈ es, e.stop ≤ b) (hab : a ≤ b) : a + removed es ≤ b := by
  induction es generalizing a with
  | nil => exact hab
  | cons e es ih =>
    rw [List.forall_mem_cons] at ha hb
    obtain ⟨hbehind, -⟩ := List.pairwise_cons.1 h.apart
    have hle := h.start_le_stop e List.mem_cons_self
    have hrest := ih (h.sublist (List.sublist_cons_self e es)) hbehind hb.2 hb.1
    rw [removed_cons]
    omega

theorem WellFormed.removed_le (h : WellFormed size es) : removed es ≤ size := by
  have hle := h.add_removed_le (fun e _ ↦ Nat.zero_le e.start) h.stop_le_size (Nat.zero_le size)
  omega

theorem WellFormed.of_append_left (h : WellFormed size (front ++ back)) : WellFormed size front :=
  h.sublist (List.sublist_append_left front back)

theorem WellFormed.of_append_right (h : WellFormed size (front ++ back)) : WellFormed size back :=
  h.sublist (List.sublist_append_right front back)

theorem WellFormed.exists_between {front' back' : List Edit} (h : WellFormed size (front ++ back))
    (hsplit : front ++ back = front' ++ back') (hfront : ∀ e ∈ front, e.stop ≤ x)
    (hback' : ∀ e ∈ back', y < e.start) (hle : x ≤ y) :
    ∃ m, front' = front ++ m ∧ back = m ++ back' := by
  rcases List.append_eq_append_iff.1 hsplit with ⟨m, rfl, rfl⟩ | ⟨m, rfl, rfl⟩
  · exact ⟨m, rfl, rfl⟩
  · cases m with
    | nil => exact ⟨[], by simp, by simp⟩
    | cons e m =>
      have hstop := hfront e (List.mem_append_right front' List.mem_cons_self)
      have hstart := hback' e List.mem_cons_self
      have hordered := h.start_le_stop e (by simp)
      omega

theorem WellFormed.copiesAt_unique (h : WellFormed size es) (hi : CopiesAt size es i x)
    (hj : CopiesAt size es j x) : i = j := by
  obtain ⟨front, back, rfl, hfront, hback, -, hat⟩ := hi
  obtain ⟨front', back', hsplit, hfront', hback', -, hat'⟩ := hj
  obtain ⟨m, rfl, rfl⟩ := h.exists_between hsplit hfront hback' (Nat.le_refl x)
  cases m with
  | nil =>
    rw [List.append_nil] at hat'
    omega
  | cons e m =>
    have hstop := hfront' e (List.mem_append_right front List.mem_cons_self)
    have hstart := hback e List.mem_cons_self
    have hordered := h.start_le_stop e (by simp)
    omega

theorem WellFormed.copiesAt_lt (h : WellFormed size es) (hi : CopiesAt size es i x)
    (hj : CopiesAt size es j y) (hlt : x < y) : i < j := by
  obtain ⟨front, back, rfl, hfront, hback, -, hat⟩ := hi
  obtain ⟨front', back', hsplit, hfront', hback', -, hat'⟩ := hj
  obtain ⟨m, rfl, rfl⟩ := h.exists_between hsplit hfront hback' (Nat.le_of_lt hlt)
  have hm := h.of_append_right.of_append_left.add_removed_le
    (fun e he ↦ hback e (List.mem_append_left back' he))
    (fun e he ↦ hfront' e (List.mem_append_right front he)) hlt
  rw [removed_append, added_append] at hat'
  omega

theorem WellFormed.copiesAt_lt_iff (h : WellFormed size es) (hi : CopiesAt size es i x)
    (hj : CopiesAt size es j y) : i < j ↔ x < y := by
  refine ⟨fun hlt ↦ ?_, h.copiesAt_lt hi hj⟩
  by_contra hge
  rcases Nat.lt_or_eq_of_le (Nat.le_of_not_lt hge) with hgt | rfl
  · exact Nat.lt_asymm hlt (h.copiesAt_lt hj hi hgt)
  · exact Nat.ne_of_lt hlt (h.copiesAt_unique hi hj)

theorem WellFormed.not_putsAt (h : WellFormed size es) (hi : CopiesAt size es i x) :
    ¬ PutsAt es e i k := by
  rintro ⟨front', back', hsplit, hk, hat'⟩
  obtain ⟨front, back, rfl, hfront, hback, -, hat⟩ := hi
  rcases List.append_eq_append_iff.1 hsplit with ⟨m, rfl, rfl⟩ | ⟨m, rfl, hm⟩
  · have hstart := hback e (by simp)
    have hapart := (List.pairwise_append.1 h.of_append_right.apart).2.2
    have hbetween := h.of_append_right.of_append_left.add_removed_le
      (fun d hd ↦ hback d (List.mem_append_left _ hd))
      (fun d hd ↦ hapart d hd e List.mem_cons_self) hstart
    rw [removed_append, added_append] at hat'
    omega
  · cases m with
    | nil =>
      obtain rfl : e :: back' = back := hm
      have hstart := hback e List.mem_cons_self
      rw [List.append_nil] at hat
      omega
    | cons d m =>
      obtain ⟨rfl, rfl⟩ := List.cons.inj hm
      have hrest := h.of_append_left.of_append_right
      have hstop := hfront e (by simp)
      have hordered := h.start_le_stop e (by simp)
      have hbetween := (hrest.sublist (List.sublist_cons_self e m)).add_removed_le
        (List.pairwise_cons.1 hrest.apart).1 (fun d hd ↦ hfront d (by simp [hd])) hstop
      rw [removed_append, removed_cons, added_append, added_cons] at hat
      omega

theorem CopiesAt.cons (h : CopiesAt size es (e.stop + i) x) (hordered : e.start ≤ e.stop)
    (hx : e.stop ≤ x) : CopiesAt size (e :: es) (e.start + e.replacement.size + i) x := by
  obtain ⟨front, back, rfl, hfront, hback, hsize, hat⟩ := h
  refine ⟨e :: front, back, rfl, List.forall_mem_cons.2 ⟨hx, hfront⟩, hback, hsize, ?_⟩
  rw [removed_cons, added_cons]
  omega

theorem PutsAt.cons {d : Edit} (h : PutsAt es d (e.stop + i) k) (hordered : e.start ≤ e.stop) :
    PutsAt (e :: es) d (e.start + e.replacement.size + i) k := by
  obtain ⟨front, back, rfl, hk, hat⟩ := h
  refine ⟨e :: front, back, rfl, hk, ?_⟩
  rw [removed_cons, added_cons]
  omega

theorem getElem?_middle {α : Type} {u v w : List α} (hk : k < v.length) :
    (u ++ v ++ w)[u.length + k]? = v[k]? := by
  rw [List.append_assoc, List.getElem?_append_right (Nat.le_add_right _ _),
    Nat.add_sub_cancel_left, List.getElem?_append_left hk]

theorem getElem?_behind {α : Type} (u v w : List α) (k : Nat) :
    (u ++ v ++ w)[u.length + v.length + k]? = w[k]? := by
  rw [← List.length_append, List.getElem?_append_right (Nat.le_add_right _ _),
    Nat.add_sub_cancel_left]

/-- What stands at byte `i` of an output, and its origin: a copy from a gap, or a byte that an edit
puts in. Positions count from `a`, as if the output had come to that offset when the input has. -/
inductive Aligned (input output : Text) (origins : List Nat) (es : List Edit) (a i : Nat) : Prop
  | copied {x : Nat} : a ≤ x → CopiesAt input.size es (a + i) x → origins[i]? = some x →
    output.bytes[i]? = input.bytes[x]? → Aligned input output origins es a i
  | put {e : Edit} {k : Nat} : PutsAt es e (a + i) k → origins[i]? = e.origins[k]? →
    output.bytes[i]? = e.replacement.bytes[k]? → Aligned input output origins es a i

section Step

variable {kept rest : Text} {origins : List Nat}

theorem Aligned.cons (h : Aligned input rest origins es e.stop i)
    (hkept : input.slice? a e.start = some kept) (hordered : e.start ≤ e.stop)
    (hcount : e.origins.length = e.replacement.size) :
    Aligned input (kept ++ e.replacement ++ rest)
      (List.range' a (e.start - a) ++ e.origins ++ origins) (e :: es) a
      (kept.size + e.replacement.size + i) := by
  have hsize := size_of_slice? hkept
  have hposition : a + (kept.size + e.replacement.size + i) =
      e.start + e.replacement.size + i := by
    omega
  have horigin : (List.range' a (e.start - a) ++ e.origins ++ origins)[
      kept.size + e.replacement.size + i]? = origins[i]? := by
    have hlength : kept.size + e.replacement.size =
        (List.range' a (e.start - a)).length + e.origins.length := by
      rw [List.length_range', hcount]
      omega
    rw [hlength, getElem?_behind]
  have hbyte : (kept ++ e.replacement ++ rest).bytes[kept.size + e.replacement.size + i]? =
      rest.bytes[i]? := by
    rw [bytes_append, bytes_append, ← length_bytes, ← length_bytes, getElem?_behind]
  cases h with
  | @copied x hle hat ho hb =>
    refine .copied (x := x) (by omega) ?_ (horigin.trans ho) (hbyte.trans hb)
    rw [hposition]
    exact hat.cons hordered hle
  | put hat ho hb =>
    refine .put ?_ (horigin.trans ho) (hbyte.trans hb)
    rw [hposition]
    exact hat.cons hordered

theorem aligned_put (hkept : input.slice? a e.start = some kept)
    (hcount : e.origins.length = e.replacement.size) (hk : k < e.replacement.size) :
    Aligned input (kept ++ e.replacement ++ rest)
      (List.range' a (e.start - a) ++ e.origins ++ origins) (e :: es) a (kept.size + k) := by
  have hsize := size_of_slice? hkept
  refine .put ⟨[], es, rfl, hk, by rw [removed_nil, added_nil]; omega⟩ ?_ ?_
  · have hlength : kept.size = (List.range' a (e.start - a)).length := by
      rw [List.length_range']
      omega
    rw [hlength, getElem?_middle (by rwa [hcount])]
  · rw [bytes_append, bytes_append, ← length_bytes kept, getElem?_middle (by rwa [length_bytes])]

theorem aligned_copy (hkept : input.slice? a e.start = some kept) (hi : i < kept.size)
    (hinside : e.start ≤ input.size) (hbehind : ∀ d ∈ es, e.start ≤ d.start) :
    Aligned input (kept ++ e.replacement ++ rest)
      (List.range' a (e.start - a) ++ e.origins ++ origins) (e :: es) a i := by
  have hsize := size_of_slice? hkept
  refine .copied (Nat.le_add_right a i) ⟨[], e :: es, rfl, nofun, ?_, by omega, rfl⟩ ?_ ?_
  · refine List.forall_mem_cons.2 ⟨by omega, fun d hd ↦ ?_⟩
    exact Nat.lt_of_lt_of_le (by omega) (hbehind d hd)
  · rw [List.append_assoc, List.getElem?_append_left (by rw [List.length_range']; omega),
      List.getElem?_range' (by omega), Nat.one_mul]
  · rw [List.append_assoc, bytes_append, List.getElem?_append_left (by rwa [length_bytes])]
    exact getElem?_bytes_slice? hkept hi

end Step

theorem Accepted.aligned (h : Accepted input.size a es)
    (houtput : spliceFrom input a es = some output) (hi : i < output.size) :
    Aligned input output (originsFrom input.size a es) es a i := by
  induction h generalizing output i with
  | @nil a hle =>
    have hsize := size_of_slice? houtput
    refine .copied (Nat.le_add_right a i) ⟨[], [], rfl, nofun, nofun, by omega, rfl⟩ ?_ ?_
    · rw [originsFrom, List.getElem?_range' (by omega), Nat.one_mul]
    · exact getElem?_bytes_slice? houtput hi
  | @cons a e es hstart hstop hcount horigins hes ih =>
    obtain ⟨kept, rest, hkept, hrest, rfl⟩ := spliceFrom_cons_eq_some.1 houtput
    rw [size_append, size_append] at hi
    rw [originsFrom]
    by_cases hcopy : i < kept.size
    · have hinside := Nat.le_trans hstop hes.le
      exact aligned_copy hkept hcopy hinside fun d hd ↦
        Nat.le_trans hstop ((accepted_iff.1 hes).2.1 d hd)
    · obtain ⟨k, rfl⟩ := Nat.exists_eq_add_of_le (Nat.le_of_not_lt hcopy)
      by_cases hput : k < e.replacement.size
      · exact aligned_put hkept hcount hput
      · obtain ⟨k, rfl⟩ := Nat.exists_eq_add_of_le (Nat.le_of_not_lt hput)
        rw [← Nat.add_assoc]
        exact (ih hrest (by omega)).cons hkept hstop hcount

theorem Accepted.exists_copiesAt (h : Accepted size a es) (ha : a ≤ x) (hx : x < size)
    (hfree : ∀ e ∈ es, ¬ (e.start ≤ x ∧ x < e.stop)) : ∃ i, a ≤ i ∧ CopiesAt size es i x := by
  induction h with
  | nil => exact ⟨x, ha, [], [], rfl, nofun, nofun, hx, rfl⟩
  | @cons a e es hstart hstop _ _ hes ih =>
    rw [List.forall_mem_cons] at hfree
    by_cases hbefore : x < e.start
    · refine ⟨x, ha, [], e :: es, rfl, nofun, ?_, hx, rfl⟩
      refine List.forall_mem_cons.2 ⟨hbefore, fun d hd ↦ ?_⟩
      have hd := (accepted_iff.1 hes).2.1 d hd
      omega
    · have hbehind : e.stop ≤ x := by
        by_contra hinside
        exact hfree.1 ⟨by omega, by omega⟩
      obtain ⟨i, hi, hat⟩ := ih hbehind hfree.2
      obtain ⟨k, rfl⟩ := Nat.exists_eq_add_of_le hi
      exact ⟨_, by omega, hat.cons hstop hbehind⟩

theorem Accepted.size_splice (h : Accepted input.size a es)
    (houtput : spliceFrom input a es = some output) :
    a + output.size + removed es = input.size + added es := by
  induction h generalizing output with
  | nil =>
    have hsize := size_of_slice? houtput
    simp only [removed_nil, added_nil]
    omega
  | @cons a e es hstart hstop _ _ _ ih =>
    obtain ⟨kept, rest, hkept, hrest, rfl⟩ := spliceFrom_cons_eq_some.1 houtput
    have hsize := size_of_slice? hkept
    have hrest := ih hrest
    simp only [removed_cons, added_cons, size_append]
    omega

theorem WellFormed.copiesAt_lt_size (h : WellFormed input.size es)
    (hsize : output.size + removed es = input.size + added es)
    (hi : CopiesAt input.size es i x) : i < output.size := by
  obtain ⟨front, back, rfl, -, hback, hx, hat⟩ := hi
  have hrest := h.of_append_right.add_removed_le hback h.of_append_right.stop_le_size hx
  rw [removed_append, added_append] at hsize
  omega

/-- Well-formed edits that cut between characters splice. The output has one origin for each of its
bytes, and it has grown by what is put in and shrunk by what is taken out. Each byte is a copy from
a gap, which comes from where the copied byte stands, or a byte that an edit puts in, which comes
from where the edit says. The gaps are copied once and in order. -/
theorem splice_aligned (hvalid : validate input.size es = .ok ())
    (hcuts : ∀ e ∈ es, input.IsBoundary e.start ∧ input.IsBoundary e.stop) :
    ∃ output origins, splice input es = some output ∧
      spliceOrigins input.size es = origins ∧
      origins.length = output.bytes.length ∧
      output.bytes.length = input.bytes.length + added es - removed es ∧
      removed es ≤ input.bytes.length ∧ (∀ e ∈ es, e.start ≤ e.stop) ∧
      (∀ i < output.bytes.length,
        (∃ x, CopiesAt input.bytes.length es i x ∧ origins[i]? = some x ∧
          output.bytes[i]? = input.bytes[x]?) ∨
        ∃ e k, PutsAt es e i k ∧ origins[i]? = e.origins[k]? ∧
          output.bytes[i]? = e.replacement.bytes[k]?) ∧
      (∀ i x e k, CopiesAt input.bytes.length es i x → ¬ PutsAt es e i k) ∧
      (∀ x < input.bytes.length, (∀ e ∈ es, ¬ (e.start ≤ x ∧ x < e.stop)) →
        ∃! i, i < output.bytes.length ∧ CopiesAt input.bytes.length es i x) ∧
      ∀ i j x y, CopiesAt input.bytes.length es i x → CopiesAt input.bytes.length es j y →
        (i < j ↔ x < y) := by
  have haccepted := validate_eq_ok_iff.1 hvalid
  have hform := validate_eq_ok_iff_wellFormed.1 hvalid
  obtain ⟨output, houtput, hlength⟩ := haccepted.exists_splice ⟨[], input, rfl, rfl⟩ hcuts
  have hsize := haccepted.size_splice houtput
  rw [Nat.zero_add] at hsize
  simp only [length_bytes]
  refine ⟨output, _, houtput, rfl, hlength, by omega, hform.removed_le, hform.start_le_stop,
    fun i hi ↦ ?_, fun i x e k ↦ hform.not_putsAt, fun x hx hfree ↦ ?_,
    fun i j x y ↦ hform.copiesAt_lt_iff⟩
  · cases haccepted.aligned houtput hi with
    | copied _ hat ho hb =>
      rw [Nat.zero_add] at hat
      exact .inl ⟨_, hat, ho, hb⟩
    | put hat ho hb =>
      rw [Nat.zero_add] at hat
      exact .inr ⟨_, _, hat, ho, hb⟩
  · obtain ⟨i, -, hat⟩ := haccepted.exists_copiesAt (Nat.zero_le x) hx hfree
    refine ⟨i, ⟨hform.copiesAt_lt_size hsize hat, hat⟩, ?_⟩
    rintro j ⟨-, hj⟩
    exact hform.copiesAt_unique hj hat

def touchingEdits : List Edit :=
  [⟨1, 1, "x".toList, [0]⟩, ⟨1, 2, [], []⟩, ⟨2, 6, "éçà".toList, [2, 2, 3, 3, 4, 4]⟩]

theorem splice_aligned_touchingEdits : validate (Text.size "ab😀cd".toList) touchingEdits = .ok () ∧
    (∀ e ∈ touchingEdits, IsBoundary "ab😀cd".toList e.start ∧ IsBoundary "ab😀cd".toList e.stop) ∧
    splice "ab😀cd".toList touchingEdits = some "axéçàcd".toList ∧
    (spliceOrigins 8 touchingEdits).length = 10 ∧
    (∃! i, i < 10 ∧ CopiesAt 8 touchingEdits i 6) ∧
    ∀ i j, CopiesAt 8 touchingEdits i 0 → CopiesAt 8 touchingEdits j 6 → i < j := by
  have hvalid : validate (Text.size "ab😀cd".toList) touchingEdits = .ok () := by decide
  have hsplice : splice "ab😀cd".toList touchingEdits = some "axéçàcd".toList := by decide
  have hcuts : ∀ e ∈ touchingEdits,
      IsBoundary "ab😀cd".toList e.start ∧ IsBoundary "ab😀cd".toList e.stop := by
    have hone : IsBoundary "ab😀cd".toList 1 := ⟨"a".toList, "b😀cd".toList, by decide, by decide⟩
    have htwo : IsBoundary "ab😀cd".toList 2 := ⟨"ab".toList, "😀cd".toList, by decide, by decide⟩
    have hsix : IsBoundary "ab😀cd".toList 6 := ⟨"ab😀".toList, "cd".toList, by decide, by decide⟩
    simp only [touchingEdits, List.forall_mem_cons]
    exact ⟨⟨hone, hone⟩, ⟨hone, htwo⟩, ⟨htwo, hsix⟩, List.forall_mem_nil _⟩
  obtain ⟨output, origins, houtput, rfl, hlength, -, -, -, -, -, honce, horder⟩ :=
    splice_aligned hvalid hcuts
  obtain rfl := Option.some.inj (hsplice.symm.trans houtput)
  refine ⟨hvalid, hcuts, hsplice, hlength, honce 6 (by decide) (by decide), ?_⟩
  intro i j hi hj
  exact (horder i j 0 6 hi hj).2 (by decide)

end TemplateSqueeze.Edit
