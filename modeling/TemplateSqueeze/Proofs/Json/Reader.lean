import Mathlib
import TemplateSqueeze.Json.Reader

namespace TemplateSqueeze.Json

variable {c : Char} {a r t : Text} {v : Value} {depth fuel : Nat}

theorem hexValue?_hexDigit : ∀ n < 16, Reader.hexValue? (hexDigit n) = some n := by decide +kernel

theorem escape_ne_nil (c : Char) : escape c ≠ [] := by
  unfold escape
  repeat' split
  all_goals exact List.cons_ne_nil _ _

theorem length_le_length_escaped (t : Text) : t.length ≤ (t.flatMap escape).length := by
  induction t with
  | nil => exact Nat.le_refl _
  | cons c t ih =>
    have h := List.length_pos_of_ne_nil (escape_ne_nil c)
    rw [List.flatMap_cons, List.length_append, List.length_cons]
    omega

namespace Reader

theorem run_next : next.run (c :: t) = some (c, t) := rfl

theorem run_word (a r : Text) : (word a).run (a ++ r) = some ((), r) := by
  induction a with
  | nil => rfl
  | cons c a ih =>
    rw [word, StateT.run_bind, List.cons_append, run_next]
    simpa using ih

theorem run_skipBlanks (h : isBlank c = false) : skipBlanks.run (c :: t) = some ((), c :: t) := by
  change some ((), (c :: t).dropWhile isBlank) = _
  rw [List.dropWhile_cons, h]
  rfl

theorem run_peek? {α : Type} {f : Option Char → Reader α} (h : isBlank c = false) :
    (do skipBlanks; f (← peek?)).run (c :: t) = (f (some c)).run (c :: t) := by
  rw [StateT.run_bind, run_skipBlanks h]
  rfl

theorem run_peek?_behind {α : Type} {b : Char} {f : Option Char → Reader α}
    (h : isBlank c = false) :
    (do discard next; skipBlanks; f (← peek?)).run (b :: c :: t) = (f (some c)).run (c :: t) :=
  run_peek? h

theorem run_hexUnit {w x y z : Char} {i j k l : Nat} (hw : hexValue? w = some i)
    (hx : hexValue? x = some j) (hy : hexValue? y = some k) (hz : hexValue? z = some l) :
    hexUnit.run (w :: x :: y :: z :: r) = some (((i * 16 + j) * 16 + k) * 16 + l, r) := by
  simp [hexUnit, run_next, hw, hx, hy, hz]

theorem run_unicodeEscape (h : c.toNat < 32) :
    unicodeEscape.run ('0' :: '0' :: hexDigit (c.toNat / 16) :: hexDigit (c.toNat % 16) :: r) =
      some (c, r) := by
  have hzero : hexValue? '0' = some 0 := rfl
  have hunit := run_hexUnit (r := r) hzero hzero
    (hexValue?_hexDigit (c.toNat / 16) (by omega)) (hexValue?_hexDigit (c.toNat % 16) (by omega))
  have hvalue : ((0 * 16 + 0) * 16 + c.toNat / 16) * 16 + c.toNat % 16 = c.toNat := by omega
  rw [hvalue] at hunit
  have hlow : ¬ (0xDC00 ≤ c.toNat ∧ c.toNat ≤ 0xDFFF) := by omega
  have hhigh : ¬ (0xD800 ≤ c.toNat ∧ c.toNat ≤ 0xDBFF) := by omega
  simp [unicodeEscape, hunit, hlow, hhigh]

theorem run_stringRest_escape (c : Char) (fuel : Nat) (r : Text) :
    (stringRest (fuel + 1)).run (escape c ++ r) =
      ((stringRest fuel).run r).map fun (t, rest) ↦ (c :: t, rest) := by
  have hstep : ∀ x, escaped.run x = some (c, r) → (stringRest (fuel + 1)).run ('\\' :: x) =
      ((stringRest fuel).run r).map fun (t, rest) ↦ (c :: t, rest) := by
    intro x hx
    rw [stringRest]
    simp only [StateT.run_bind, run_next, Option.bind_eq_bind, Option.bind_some, hx]
    cases (stringRest fuel).run r <;> rfl
  unfold escape
  split_ifs with h h h h h h h h
  · exact hstep _ (by rw [h]; rfl)
  · exact hstep _ (by rw [h]; rfl)
  · exact hstep _ (by rw [h]; rfl)
  · exact hstep _ (by rw [h]; rfl)
  · exact hstep _ (by rw [h]; rfl)
  · exact hstep _ (by rw [h]; rfl)
  · exact hstep _ (by rw [h]; rfl)
  · exact hstep _ (run_unicodeEscape h)
  · rw [stringRest, List.singleton_append]
    simp only [StateT.run_bind, run_next, Option.bind_eq_bind, Option.bind_some]
    split
    · contradiction
    · simp only [StateT.run_bind, Option.bind_eq_bind]
      cases (stringRest fuel).run r <;> rfl

theorem run_stringRest (t r : Text) (h : t.length < fuel) :
    (stringRest fuel).run (t.flatMap escape ++ '"' :: r) = some (t, r) := by
  obtain ⟨fuel, rfl⟩ := Nat.exists_eq_add_one.2 (Nat.zero_lt_of_lt h)
  induction t generalizing fuel with
  | nil => rfl
  | cons c t ih =>
    obtain ⟨fuel, rfl⟩ := Nat.exists_eq_add_one.2 (show 0 < fuel by simp at h; omega)
    rw [List.flatMap_cons, List.append_assoc, run_stringRest_escape, ih fuel (by simpa using h)]
    rfl

theorem run_string (t r : Text) : string.run (quoted t ++ r) = some (t, r) := by
  have hlen := length_le_length_escaped t
  have hquote : quoted t ++ r = ['"'] ++ (t.flatMap escape ++ '"' :: r) := by simp [quoted]
  rw [hquote, string, StateT.run_bind, run_word]
  refine run_stringRest t r ?_
  simp only [List.length_append, List.length_cons]
  omega

theorem run_skipBlanks_quoted (t r : Text) :
    skipBlanks.run (quoted t ++ r) = some ((), quoted t ++ r) :=
  run_skipBlanks rfl

/-- A text that is read as a value where a comma or a closing bracket follows. -/
structure Reads (depth : Nat) (a : Text) (v : Value) : Prop where
  head : ∃ c t, a = c :: t ∧ isBlank c = false ∧ c ≠ ']'
  run : ∀ fuel c r, a.length < fuel → c = ',' ∨ c = ']' ∨ c = '\x7d' →
    (value depth fuel).run (a ++ c :: r) = some (v, c :: r)

theorem Reads.null : Reads depth "null".toList .null where
  head := ⟨'n', "ull".toList, rfl, rfl, by decide⟩
  run fuel c r h _ := by
    obtain ⟨fuel, rfl⟩ := Nat.exists_eq_add_one.2 (Nat.zero_lt_of_lt h)
    rfl

theorem Reads.three : Reads depth ['3'] (.number (.whole 3)) where
  head := ⟨'3', [], rfl, rfl, by decide⟩
  run fuel c r h hc := by
    obtain ⟨fuel, rfl⟩ := Nat.exists_eq_add_one.2 (Nat.zero_lt_of_lt h)
    rcases hc with rfl | rfl | rfl <;> rfl

theorem Reads.string (t : Text) : Reads depth (quoted t) (.string t) where
  head := ⟨'"', _, rfl, rfl, by decide⟩
  run fuel c r h _ := by
    obtain ⟨fuel, rfl⟩ := Nat.exists_eq_add_one.2 (Nat.zero_lt_of_lt h)
    have hstring := run_string t (c :: r)
    rw [quoted, List.cons_append, List.cons_append] at hstring ⊢
    rw [value, run_peek? rfl]
    simp only [StateT.run_bind, hstring]
    rfl

theorem run_items (pairs : List (Text × Value)) (hne : pairs ≠ [])
    (hpairs : ∀ item ∈ pairs, Reads depth item.1 item.2)
    (h : (List.intersperse [','] (pairs.map Prod.fst)).flatten.length + 1 < fuel) :
    (items depth fuel).run ((List.intersperse [','] (pairs.map Prod.fst)).flatten ++ ']' :: r) =
      some (pairs.map Prod.snd, r) := by
  induction pairs generalizing fuel with
  | nil => exact absurd rfl hne
  | cons item more ih =>
    obtain ⟨a, v⟩ := item
    obtain ⟨fuel, rfl⟩ := Nat.exists_eq_add_one.2 (Nat.zero_lt_of_lt h)
    have hitem : Reads depth a v := hpairs _ List.mem_cons_self
    cases more with
    | nil =>
      simp only [List.map_cons, List.map_nil, List.intersperse_singleton, List.flatten_cons,
        List.flatten_nil, List.append_nil] at h ⊢
      rw [items, StateT.run_bind, hitem.run fuel ']' r (by omega) (by simp)]
      rfl
    | cons next more =>
      simp only [List.map_cons, List.intersperse_cons_cons, List.flatten_cons, List.length_append,
        List.length_cons, List.append_assoc, List.cons_append, List.nil_append] at h ih ⊢
      have hrest := @ih fuel (List.cons_ne_nil _ _)
        (fun item h ↦ hpairs item (List.mem_cons_of_mem _ h)) (by omega)
      rw [items, StateT.run_bind, hitem.run fuel ',' _ (by omega) (by simp)]
      simp only [StateT.run_bind, run_skipBlanks (rfl : isBlank ',' = false), run_next,
        Option.bind_eq_bind, Option.bind_some, hrest]
      rfl

theorem Reads.array (pairs : List (Text × Value))
    (hpairs : ∀ item ∈ pairs, Reads depth item.1 item.2) :
    Reads (depth + 1) (bracketed (pairs.map Prod.fst)) (.array (pairs.map Prod.snd)) where
  head := ⟨'[', _, rfl, rfl, by decide⟩
  run fuel c r h _ := by
    obtain ⟨fuel, rfl⟩ := Nat.exists_eq_add_one.2 (Nat.zero_lt_of_lt h)
    cases pairs with
    | nil => rfl
    | cons item more =>
      obtain ⟨first, rest, hfirst, hblank, hclose⟩ := (hpairs item List.mem_cons_self).head
      have hhead : ∃ t, (List.intersperse [','] ((item :: more).map Prod.fst)).flatten =
          first :: t := by
        cases more <;> simp [hfirst]
      have hlen : (List.intersperse [','] ((item :: more).map Prod.fst)).flatten.length + 1 <
          fuel := by
        simp only [bracketed, List.length_append, List.length_cons, List.length_nil] at h
        omega
      have hitems := run_items (r := c :: r) (item :: more) (List.cons_ne_nil _ _) hpairs hlen
      obtain ⟨t, ht⟩ := hhead
      rw [ht] at hitems
      rw [bracketed, ht]
      simp only [List.cons_append, List.append_assoc, List.nil_append] at hitems ⊢
      rw [value, run_peek? rfl]
      simp only [run_peek?_behind hblank]
      split
      · contradiction
      · next h => exact absurd (Option.some.inj h) hclose
      · next heq _ =>
        cases heq
        simp only [StateT.run_bind, hitems, Option.bind_eq_bind, Option.bind_some]
        rfl

structure Member where
  key : String
  text : Text
  value : Value

namespace Member

def written (m : Member) : Text := member m.key m.text

def read (m : Member) : Text × Value := (m.key.toList, m.value)

end Member

theorem run_members (ms : List Member) (hne : ms ≠ [])
    (hms : ∀ m ∈ ms, Reads depth m.text m.value)
    (h : (List.intersperse [','] (ms.map Member.written)).flatten.length + 1 < fuel) :
    (members depth fuel).run
        ((List.intersperse [','] (ms.map Member.written)).flatten ++ '\x7d' :: r) =
      some (ms.map Member.read, r) := by
  induction ms generalizing fuel with
  | nil => exact absurd rfl hne
  | cons m more ih =>
    obtain ⟨fuel, rfl⟩ := Nat.exists_eq_add_one.2 (Nat.zero_lt_of_lt h)
    have hm : Reads depth m.text m.value := hms _ List.mem_cons_self
    have hcolon : isBlank ':' = false := rfl
    have hcomma : isBlank ',' = false := rfl
    have hword : ∀ x, (word [':']).run (':' :: x) = some ((), x) := fun x ↦ run_word [':'] x
    cases more with
    | nil =>
      simp only [List.map_cons, List.map_nil, List.intersperse_singleton, List.flatten_cons,
        List.flatten_nil, List.append_nil, Member.written, member, List.length_append,
        List.length_cons, List.append_assoc, List.cons_append] at h ⊢
      rw [members]
      simp only [StateT.run_bind, run_skipBlanks_quoted, run_string, run_skipBlanks hcolon,
        hword, hm.run fuel '\x7d' r (by omega) (by simp), Option.bind_eq_bind, Option.bind_some]
      rfl
    | cons next more =>
      simp only [List.map_cons, List.intersperse_cons_cons, List.flatten_cons, Member.written,
        member, List.length_append, List.length_cons, List.append_assoc, List.cons_append,
        List.nil_append] at h ih ⊢
      have hrest := @ih fuel (List.cons_ne_nil _ _)
        (fun m h ↦ hms m (List.mem_cons_of_mem _ h)) (by omega)
      rw [members]
      simp only [StateT.run_bind, run_skipBlanks_quoted, run_string, run_skipBlanks hcolon,
        hword, hm.run fuel ',' _ (by omega) (by simp), run_skipBlanks hcomma, run_next,
        Option.bind_eq_bind, Option.bind_some]
      rw [hrest]
      rfl

theorem run_value_object (ms : List Member) (hne : ms ≠ [])
    (hms : ∀ m ∈ ms, Reads depth m.text m.value)
    (h : (List.intersperse [','] (ms.map Member.written)).flatten.length + 1 < fuel) :
    (value (depth + 1) (fuel + 1)).run
        ('\x7b' :: ((List.intersperse [','] (ms.map Member.written)).flatten ++ '\x7d' :: r)) =
      some (.object (ms.map Member.read), r) := by
  have hmembers := run_members (r := r) ms hne hms h
  have hhead : ∃ t, (List.intersperse [','] (ms.map Member.written)).flatten = '"' :: t := by
    cases ms with
    | nil => exact absurd rfl hne
    | cons m more => cases more <;> simp [Member.written, member, quoted]
  obtain ⟨t, ht⟩ := hhead
  rw [ht] at hmembers ⊢
  rw [List.cons_append] at hmembers ⊢
  rw [value, run_peek? rfl]
  simp only [run_peek?_behind (rfl : isBlank '"' = false)]
  split
  · contradiction
  · next h => cases h
  · next heq _ =>
    cases heq
    simp only [StateT.run_bind, hmembers, Option.bind_eq_bind, Option.bind_some]
    rfl

end Reader

theorem parse?_braced (ms : List Reader.Member) (hne : ms ≠ [])
    (hms : ∀ m ∈ ms, Reader.Reads 126 m.text m.value) :
    parse? (braced (ms.map Reader.Member.written)) =
      some (.object (ms.map Reader.Member.read)) := by
  rw [parse?, braced, List.cons_append, Reader.run_value_object ms hne hms]
  · rfl
  · simp only [List.length_cons, List.length_append]
    omega

end TemplateSqueeze.Json
