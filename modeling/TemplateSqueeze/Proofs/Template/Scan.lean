import TemplateSqueeze.Proofs.Template.Faithful
import TemplateSqueeze.Template.Squeeze

namespace TemplateSqueeze.Template

open Text

theorem takeWhile_append_cons {t r : Text} {c d : Char}
    (h : t.drop (t.takeWhile (· != d)).length = c :: r) :
    c = d ∧ t = t.takeWhile (· != d) ++ c :: r := by
  have ht := List.takeWhile_append_dropWhile (p := (· != d)) (l := t)
  have hr : (t.takeWhile (· != d) ++ t.dropWhile (· != d)).drop
      (t.takeWhile (· != d)).length = t.dropWhile (· != d) := List.drop_left
  rw [ht, h] at hr
  have hc := List.head?_dropWhile_not (· != d) t
  rw [← hr] at hc ht
  exact ⟨by simpa using hc, ht.symm⟩

theorem not_mem_takeWhile (t : Text) (d : Char) : d ∉ t.takeWhile (· != d) := by
  intro h
  have := List.all_takeWhile (p := (· != d)) (l := t)
  rw [List.all_eq_true] at this
  simpa using this d h

theorem bracedSpace?_eq_some {t body : Text} (h : bracedSpace? t = some body) :
    ∃ digits r, body = 'u' :: '\x7b' :: digits ++ ['\x7d'] ∧ t = body ++ r ∧
      namesSpace digits ∧ '\x7d' ∉ digits := by
  unfold bracedSpace? at h
  split at h
  · next t =>
    simp only at h
    split at h
    · cases h
    · next d r hr =>
      split at h
      · next hn =>
        cases h
        obtain ⟨rfl, ht⟩ := takeWhile_append_cons hr
        refine ⟨_, r, rfl, ?_, hn, not_mem_takeWhile _ _⟩
        rw [List.append_assoc, List.singleton_append]
        exact congrArg ('u' :: '\x7b' :: ·) ht
      · cases h
  · cases h

theorem escapeBody_append (t : Text) : ∃ r, t = (escapeBody t).2 ++ r := by
  unfold escapeBody
  split
  · next body _ h =>
    obtain ⟨_, r, _, hr, _⟩ := bracedSpace?_eq_some h
    exact ⟨r, hr⟩
  all_goals exact ⟨_, rfl⟩

namespace Lexeme

variable {c : Char} {t : Text}

theorem first_append (c : Char) (t : Text) :
    (first c t).text ++ (c :: t).drop (first c t).text.length = c :: t := by
  have h : ∃ r, c :: t = (first c t).text ++ r := by
    unfold first
    split
    · exact ⟨t, rfl⟩
    · split
      · obtain ⟨r, hr⟩ := escapeBody_append t
        exact ⟨r, congrArg (c :: ·) hr⟩
      · exact ⟨t, rfl⟩
  obtain ⟨r, hr⟩ := h
  generalize (first c t).text = u at *
  rw [hr, List.drop_left]

theorem eq_of_kind_ne_other (h : (first c t).kind ≠ .other) : c = ' ' ∨ c = '\\' := by
  unfold first at h
  split at h
  · exact .inl ‹_›
  · split at h
    · exact .inr ‹_›
    · exact absurd rfl h

end Lexeme

variable {source t : Text} {lo mid hi offset : Nat} {held : Option Held}

theorem slice?_first {c : Char} (h : source.slice? offset hi = some (c :: t)) :
    source.slice? offset (offset + (Lexeme.first c t).text.size) = some (Lexeme.first c t).text ∧
      source.slice? (offset + (Lexeme.first c t).text.size) hi =
        some ((c :: t).drop (Lexeme.first c t).text.length) := by
  rw [← Lexeme.first_append c t] at h
  exact slice?_append.1 h

theorem charAt?_of_slice? {c : Char} (h : source.slice? offset hi = some (c :: t)) :
    source.charAt? offset = some c := by
  obtain ⟨a, r, rfl, rfl, -⟩ := slice?_eq_some.1 h
  exact charAt?_eq_some.2 ⟨a, t ++ r, by simp, rfl⟩

theorem Run.slice?_extend {run : Run} (h : source.slice? run.offset hi = some run.rest)
    (ht : source.slice? offset hi = some t) :
    source.slice? (run.extend offset t).offset hi = some (run.extend offset t).rest := by
  fun_induction Run.extend run offset t with
  | case1 => exact h
  | case2 run offset c t l rest next _ ih => exact ih (slice?_first ht).2 (slice?_first ht).2
  | case3 run offset c t l rest next _ ih => exact ih h (slice?_first ht).2
  | case4 => exact h

theorem Run.le_offset_extend (run : Run) (h : run.offset ≤ offset) :
    run.offset ≤ (run.extend offset t).offset := by
  fun_induction Run.extend run offset t with
  | case1 => exact Nat.le_refl _
  | case2 run offset c t l rest next _ ih =>
    exact Nat.le_trans (Nat.le_trans h (Nat.le_add_right _ _)) (ih (Nat.le_refl _))
  | case3 run offset c t l rest next _ ih => exact ih (Nat.le_trans h (Nat.le_add_right _ _))
  | case4 => exact Nat.le_refl _

def Held.start (held : Option Held) (offset : Nat) : Nat := (held.map Held.offset).getD offset

theorem text_write (u : Held) : (Held.write (some u)).text = u.text := Segment.text_copy _ _

theorem text_writeBefore (u : Held) (next : Option Char) :
    (Held.writeBefore next (some u)).text = (respelling? u.text next).getD u.text := by
  rw [Held.writeBefore]
  split
  · next h => rw [h, Segment.text_spell]; rfl
  · next h => rw [h, Segment.text_copy]; rfl

/-- A way to account for segments by the ranges of the source that they stand for: for copies, for
units that are spelled another way, for runs that are gone, and for one segment behind another. -/
structure Segment.Accounting (source : Text) (R : Nat → Nat → Segment → Prop) : Prop where
  le {lo hi : Nat} {s : Segment} : R lo hi s → lo ≤ hi
  lt_size {lo hi : Nat} {s : Segment} : R lo hi s → ∀ x ∈ s.origins, x < source.size
  nil (lo : Nat) : R lo lo []
  copy {lo hi : Nat} {t : Text} : source.slice? lo hi = some t → R lo hi (.copy lo t)
  respell {lo hi : Nat} {next : Option Char} {unit t : Text} :
    source.slice? lo hi = some unit → respelling? unit next = some t → R lo hi (.spell lo t)
  remove {lo hi : Nat} {c : Char} :
    lo ≤ hi → source.charAt? lo = some c → c = ' ' ∨ c = '\\' → R lo hi []
  append {lo mid hi : Nat} {s s' : Segment} : R lo mid s → R mid hi s' → R lo hi (s ++ s')

namespace Segment.Accounting

variable {R : Nat → Nat → Segment → Prop}

theorem write (hR : Accounting source R)
    (h : ∀ u, held = some u → source.slice? u.offset offset = some u.text) :
    R (Held.start held offset) offset (Held.write held) := by
  cases held with
  | none => exact hR.nil offset
  | some u => exact hR.copy (h u rfl)

theorem writeBefore (hR : Accounting source R) (next : Option Char)
    (h : ∀ u, held = some u → source.slice? u.offset offset = some u.text) :
    R (Held.start held offset) offset (Held.writeBefore next held) := by
  cases held with
  | none => exact hR.nil offset
  | some u =>
    rw [Held.writeBefore]
    split
    · next t ht => exact hR.respell (h u rfl) ht
    · exact hR.copy (h u rfl)

/-- The scan accounts for the source from the unit it holds to the end of the piece. -/
theorem squeezeFrom (hR : Accounting source R) (held : Option Held)
    (hheld : ∀ u, held = some u → source.slice? u.offset offset = some u.text)
    (ht : source.slice? offset hi = some t) :
    R (Held.start held offset) hi (squeezeFrom held offset t) := by
  fun_induction Template.squeezeFrom held offset t with
  | case1 held offset =>
    obtain rfl : offset = hi := by
      obtain ⟨a, r, -, rfl, h⟩ := slice?_eq_some.1 ht
      exact h
    exact hR.write hheld
  | case2 held offset c t l rest next hl run _ hspaces ih =>
    have hrest := (slice?_first ht).2
    have hnext : next ≤ run.offset := Run.le_offset_extend ⟨1, rest, next⟩ (Nat.le_refl _)
    have hle : offset ≤ run.offset := Nat.le_trans (Nat.le_add_right _ _) hnext
    have hk : l.kind ≠ .other := by rw [hl]; decide
    have hgone : R offset run.offset [] :=
      hR.remove hle (charAt?_of_slice? ht) (Lexeme.eq_of_kind_ne_other hk)
    exact hR.append (hR.writeBefore _ hheld)
      (hR.append hgone (ih nofun (Run.slice?_extend hrest hrest)))
  | case3 held offset c t l rest next hl run _ hspaces ih =>
    obtain ⟨hl, hrest⟩ := slice?_first ht
    exact hR.append (hR.append (hR.write hheld) (hR.copy hl)) (ih nofun hrest)
  | case4 held offset c t l rest next hl ih =>
    obtain ⟨hl, hrest⟩ := slice?_first ht
    exact hR.append (hR.write hheld) (ih (fun _ hu ↦ by cases hu; exact hl) hrest)

theorem squeeze (hR : Accounting source R) (h : source.slice? lo hi = some t) :
    R lo hi (squeeze t lo) :=
  hR.squeezeFrom none nofun h

end Segment.Accounting

structure Segment.Composing (source : Text) (R : Nat → Nat → Segment → Prop) : Prop where
  nil (lo : Nat) : R lo lo []
  copy {lo hi : Nat} {t : Text} : source.slice? lo hi = some t → R lo hi (.copy lo t)
  squeeze {lo hi : Nat} {t : Text} : source.slice? lo hi = some t → R lo hi (squeeze t lo)
  append {lo mid hi : Nat} {s s' : Segment} : R lo mid s → R mid hi s' → R lo hi (s ++ s')

theorem Segment.Accounting.composing {R : Nat → Nat → Segment → Prop} (hR : Accounting source R) :
    Composing source R where
  nil := hR.nil
  copy := hR.copy
  squeeze := hR.squeeze
  append := hR.append

/-- Which units cannot stand before which characters, and what is written in their place. -/
inductive Respelling : Text → Char → Text → Prop
  | dollar : Respelling ['$'] '\x7b' ['\\', '$']
  | null {digit : Char} : digit.isDigit → Respelling ['\\', '0'] digit ['\\', 'x', '0', '0']

theorem respelling?_eq_some_iff {old new : Text} {next : Option Char} :
    respelling? old next = some new ↔ ∃ c, next = some c ∧ Respelling old c new := by
  constructor
  · intro h
    unfold respelling? at h
    split at h
    · cases h
      exact ⟨_, rfl, .dollar⟩
    · next c =>
      split at h
      · next hc =>
        cases h
        exact ⟨c, rfl, .null hc⟩
      · cases h
    · cases h
  · intro ⟨c, hnext, h⟩
    subst hnext
    cases h with
    | dollar => rfl
    | null hc => exact if_pos hc

theorem charAt?_of_respelling? {unit w : Text} {next : Option Char}
    (h : source.slice? lo hi = some unit) (hw : respelling? unit next = some w) :
    source.charAt? lo = some '$' ∧ w = ['\\', '$'] ∨
      source.charAt? lo = some '\\' ∧ w = ['\\', 'x', '0', '0'] := by
  obtain ⟨c, -, hc⟩ := respelling?_eq_some_iff.1 hw
  cases hc with
  | dollar => exact .inl ⟨charAt?_of_slice? h, rfl⟩
  | null => exact .inr ⟨charAt?_of_slice? h, rfl⟩

theorem Segment.Faithful.respell {unit w : Text} {next : Option Char}
    (h : source.slice? lo hi = some unit) (hw : respelling? unit next = some w) :
    Faithful source lo hi (.spell lo w) := by
  have hsize := size_of_slice? h
  rcases charAt?_of_respelling? h hw with ⟨hc, rfl⟩ | ⟨hc, rfl⟩
  · exact .spelled (.refl _ _) (by decide) rfl hc rfl <|
      .spelled (.refl _ _) (by decide) rfl hc rfl <| .nil (.of_charAt? (by omega) hc (by decide))
  · exact .spelled (.refl _ _) (by decide) rfl hc rfl <|
      .spelled (.refl _ _) (by decide) rfl hc rfl <|
      .spelled (.refl _ _) (by decide) rfl hc rfl <|
      .spelled (.refl _ _) (by decide) rfl hc rfl <| .nil (.of_charAt? (by omega) hc (by decide))

/-- No line feed is split from its return where a run is gone, as a run begins with neither. -/
theorem Segment.Faithful.accounting (source : Text) :
    Accounting source (Faithful source) where
  le := le
  lt_size h x hx := (h.bounds x hx).2
  nil lo := .nil (.refl _ _)
  copy := of_slice?
  respell := respell
  remove h hc hor := .nil (.of_charAt? h hc (by rcases hor with rfl | rfl <;> decide))
  append := append

end TemplateSqueeze.Template
