import Mathlib.Data.List.Basic
import TemplateSqueeze.Text.Basic

namespace TemplateSqueeze.Text

theorem size_eq_zero {t : Text} : t.size = 0 ↔ t = [] := by
  cases t with
  | nil => simp
  | cons c t =>
    have := c.utf8Size_pos
    simp only [size_cons, reduceCtorEq, iff_false]
    omega

theorem exists_between {a r b s : Text} (h : a ++ r = b ++ s) (hs : a.size ≤ b.size) :
    ∃ m : Text, b = a ++ m ∧ r = m ++ s := by
  rcases List.append_eq_append_iff.1 h with ⟨m, hb, hr⟩ | ⟨m, ha, hm⟩
  · exact ⟨m, hb, hr⟩
  · have hm' : size m = 0 := by rw [ha, size_append] at hs; omega
    have he := size_eq_zero.1 hm'
    subst he
    exact ⟨[], by simpa using ha.symm, by simpa using hm.symm⟩

theorem cut_unique {a r b s : Text} (h : a ++ r = b ++ s) (hs : a.size = b.size) :
    a = b ∧ r = s := by
  obtain ⟨m, hb, hr⟩ := exists_between h (Nat.le_of_eq hs)
  have hm : m.size = 0 := by rw [hb, size_append] at hs; omega
  rw [size_eq_zero.1 hm] at hb hr
  exact ⟨by simpa using hb.symm, by simpa using hr⟩

theorem drop?_eq_some {t r : Text} {n : Nat} :
    t.drop? n = some r ↔ ∃ a, t = a ++ r ∧ a.size = n := by
  induction t generalizing n with
  | nil =>
    simp only [drop?, Option.ite_none_right_eq_some, Option.some.injEq, List.nil_eq,
      List.append_eq_nil_iff]
    constructor
    · rintro ⟨rfl, rfl⟩; exact ⟨[], ⟨rfl, rfl⟩, rfl⟩
    · rintro ⟨a, ⟨rfl, rfl⟩, rfl⟩; exact ⟨rfl, rfl⟩
  | cons c t ih =>
    have hc := c.utf8Size_pos
    rw [drop?]
    split
    · next h0 =>
      subst h0
      constructor
      · intro h; exact ⟨[], by simpa using h, rfl⟩
      · rintro ⟨a, ha, hs⟩; rw [ha, size_eq_zero.1 hs]; rfl
    · next h0 =>
      split
      · next hlt =>
        refine ⟨nofun, ?_⟩
        rintro ⟨a, ha, hs⟩
        cases a with
        | nil => simp at hs; omega
        | cons d a =>
          obtain ⟨rfl, -⟩ := List.cons.inj ha
          rw [size_cons] at hs
          omega
      · next hge =>
        rw [ih]
        constructor
        · rintro ⟨a, rfl, hs⟩
          exact ⟨c :: a, rfl, by rw [size_cons]; omega⟩
        · rintro ⟨a, ha, hs⟩
          cases a with
          | nil => simp at hs; omega
          | cons d a =>
            obtain ⟨rfl, rfl⟩ := List.cons.inj ha
            exact ⟨a, rfl, by rw [size_cons] at hs; omega⟩

theorem take?_eq_map_drop? (t : Text) (n : Nat) :
    t.take? n = (t.drop? n).map fun r ↦ t.take (t.length - r.length) := by
  induction t generalizing n with
  | nil => simp only [take?, drop?]; split <;> rfl
  | cons c t ih =>
    rw [take?, drop?]
    split
    · simp
    · split
      · rfl
      · rw [ih, Option.map_map]
        refine Option.map_congr fun r hr ↦ ?_
        obtain ⟨a, rfl, -⟩ := drop?_eq_some.1 hr
        simp only [Function.comp_apply, List.length_append, List.length_cons]
        rw [show a.length + r.length + 1 - r.length = a.length + r.length - r.length + 1 by omega,
          List.take_succ_cons]

theorem take?_eq_some {t a : Text} {n : Nat} :
    t.take? n = some a ↔ ∃ r, t = a ++ r ∧ a.size = n := by
  rw [take?_eq_map_drop?, Option.map_eq_some_iff]
  constructor
  · rintro ⟨r, hr, rfl⟩
    obtain ⟨b, rfl, hs⟩ := drop?_eq_some.1 hr
    exact ⟨r, by simp, by simpa using hs⟩
  · rintro ⟨r, rfl, hs⟩
    exact ⟨r, drop?_eq_some.2 ⟨a, rfl, hs⟩, by simp⟩

theorem slice?_eq_some {t m : Text} {i j : Nat} :
    t.slice? i j = some m ↔ ∃ a r, t = a ++ m ++ r ∧ a.size = i ∧ i + m.size = j := by
  unfold slice?
  split
  · next hij =>
    rw [Option.bind_eq_some_iff]
    constructor
    · rintro ⟨s, hs, hm⟩
      obtain ⟨a, rfl, ha⟩ := drop?_eq_some.1 hs
      obtain ⟨r, rfl, hr⟩ := take?_eq_some.1 hm
      exact ⟨a, r, by simp, ha, by omega⟩
    · rintro ⟨a, r, rfl, ha, hr⟩
      exact ⟨m ++ r, drop?_eq_some.2 ⟨a, by simp, ha⟩, take?_eq_some.2 ⟨r, rfl, by omega⟩⟩
  · next hij =>
    refine ⟨nofun, ?_⟩
    rintro ⟨a, r, -, -, hr⟩
    omega

theorem size_of_slice? {t m : Text} {i j : Nat} (h : t.slice? i j = some m) : i + m.size = j := by
  obtain ⟨-, -, -, -, hsize⟩ := slice?_eq_some.1 h
  exact hsize

/-- An offset that falls between two characters, or at either end. -/
def IsBoundary (t : Text) (n : Nat) : Prop := ∃ a r, t = a ++ r ∧ a.size = n

theorem isBoundary_size (t : Text) : t.IsBoundary t.size := ⟨t, [], by simp, rfl⟩

theorem IsBoundary.le_size {t : Text} {n : Nat} (h : t.IsBoundary n) : n ≤ t.size := by
  obtain ⟨a, r, rfl, rfl⟩ := h
  rw [size_append]
  omega

theorem exists_slice? {t : Text} {i j : Nat} (hi : t.IsBoundary i) (hj : t.IsBoundary j)
    (hij : i ≤ j) : ∃ m, t.slice? i j = some m := by
  obtain ⟨a, r, rfl, rfl⟩ := hi
  obtain ⟨b, s, he, rfl⟩ := hj
  obtain ⟨m, rfl, rfl⟩ := exists_between he hij
  exact ⟨m, slice?_eq_some.2 ⟨a, s, by simp, rfl, (size_append a m).symm⟩⟩

theorem isBoundary_of_slice? {t m : Text} {i j : Nat} (h : t.slice? i j = some m) :
    t.IsBoundary i ∧ t.IsBoundary j := by
  obtain ⟨a, r, rfl, rfl, rfl⟩ := slice?_eq_some.1 h
  exact ⟨⟨a, m ++ r, by simp, rfl⟩, ⟨a ++ m, r, rfl, size_append a m⟩⟩

theorem slice?_append {t x y : Text} {i j : Nat} : t.slice? i j = some (x ++ y) ↔
    t.slice? i (i + x.size) = some x ∧ t.slice? (i + x.size) j = some y := by
  simp only [slice?_eq_some]
  constructor
  · rintro ⟨a, r, rfl, rfl, rfl⟩
    exact ⟨⟨a, y ++ r, by simp, rfl, trivial⟩, a ++ x, r, by simp, size_append a x,
      by rw [size_append, Nat.add_assoc]⟩
  · rintro ⟨⟨a, r, rfl, rfl, -⟩, b, s, he, hb, rfl⟩
    obtain ⟨rfl, rfl⟩ := cut_unique (a := a ++ x) (b := b) (by rw [he, List.append_assoc])
      (by rw [size_append, hb])
    exact ⟨a, s, by simp, rfl, by rw [size_append, Nat.add_assoc]⟩

theorem charAt?_eq_some {t : Text} {c : Char} {n : Nat} :
    t.charAt? n = some c ↔ ∃ a r, t = a ++ c :: r ∧ a.size = n := by
  rw [charAt?, Option.bind_eq_some_iff]
  constructor
  · rintro ⟨s, hs, hc⟩
    obtain ⟨a, rfl, ha⟩ := drop?_eq_some.1 hs
    cases s with
    | nil => cases hc
    | cons d r => cases hc; exact ⟨a, r, rfl, ha⟩
  · rintro ⟨a, r, rfl, ha⟩
    exact ⟨c :: r, drop?_eq_some.2 ⟨a, rfl, ha⟩, rfl⟩

theorem isBoundary_of_charAt? {t : Text} {c : Char} {n : Nat} (h : t.charAt? n = some c) :
    t.IsBoundary n := by
  obtain ⟨a, r, rfl, rfl⟩ := charAt?_eq_some.1 h
  exact ⟨a, c :: r, rfl, rfl⟩

theorem charBefore?_eq_some {t : Text} {c : Char} {n : Nat} :
    t.charBefore? n = some c ↔ ∃ a r, t = a ++ c :: r ∧ a.size + c.utf8Size = n := by
  rw [charBefore?, Option.bind_eq_some_iff]
  constructor
  · rintro ⟨s, hs, hc⟩
    obtain ⟨r, rfl, ha⟩ := take?_eq_some.1 hs
    obtain ⟨a, rfl⟩ := List.getLast?_eq_some_iff.1 hc
    exact ⟨a, r, by simp, by simpa using ha⟩
  · rintro ⟨a, r, rfl, ha⟩
    exact ⟨a ++ [c], take?_eq_some.2 ⟨r, by simp, by simpa using ha⟩, by simp⟩

theorem eq_append_of_charAt? {t a r : Text} {c : Char} {n : Nat} (hc : t.charAt? n = some c)
    (ht : t = a ++ r) (hlt : n < a.size) (hle : a.size ≤ n + c.utf8Size) :
    ∃ b, b.size = n ∧ a = b ++ [c] := by
  obtain ⟨b, s, hb, rfl⟩ := charAt?_eq_some.1 hc
  obtain ⟨m, rfl, hm⟩ := exists_between (hb.symm.trans ht) (Nat.le_of_lt hlt)
  rw [size_append] at hlt hle
  cases m with
  | nil =>
    rw [size_nil] at hlt
    omega
  | cons d m =>
    obtain rfl := (List.cons.inj hm).1
    rw [size_cons] at hle
    have hm : size m = 0 := by omega
    exact ⟨b, rfl, by rw [size_eq_zero.1 hm]⟩

theorem exists_append_of_slice? {t m : Text} {c : Char} {i j n : Nat} (hm : t.slice? i j = some m)
    (hc : t.charAt? n = some c) (hi : i ≤ n) (hj : n < j) :
    ∃ a r, m = a ++ c :: r ∧ i + a.size = n := by
  obtain ⟨front, back, rfl, rfl, hsize⟩ := slice?_eq_some.1 hm
  obtain ⟨before, behind, he, rfl⟩ := charAt?_eq_some.1 hc
  rw [List.append_assoc] at he
  obtain ⟨a, rfl, ha⟩ := exists_between he hi
  rw [size_append] at hj
  obtain ⟨rest, rfl, hrest⟩ := exists_between ha.symm (by omega)
  cases rest with
  | nil =>
    rw [List.append_nil] at hsize
    omega
  | cons d r =>
    obtain rfl := (List.cons.inj hrest).1
    exact ⟨a, r, rfl, (size_append front a).symm⟩

theorem charAt?_lt_size {t : Text} {c : Char} {n : Nat} (h : t.charAt? n = some c) :
    n + c.utf8Size ≤ t.size := by
  obtain ⟨a, r, rfl, rfl⟩ := charAt?_eq_some.1 h
  simp only [size_append, size_cons]
  omega

theorem bytes_append (a b : Text) : (a ++ b).bytes = a.bytes ++ b.bytes := List.flatMap_append

theorem getElem?_bytes {a r : Text} {c : Char} {k : Nat} (hk : k < c.utf8Size) :
    (a ++ c :: r).bytes[a.size + k]? = (String.utf8EncodeChar c)[k]? := by
  have hbytes : bytes (c :: r) = String.utf8EncodeChar c ++ bytes r := rfl
  rw [bytes_append, hbytes, ← length_bytes a,
    List.getElem?_append_right (Nat.le_add_right _ _), Nat.add_sub_cancel_left,
    List.getElem?_append_left (by rwa [String.length_utf8EncodeChar])]

theorem getElem?_bytes_slice? {t m : Text} {i j k : Nat} (h : t.slice? i j = some m)
    (hk : k < m.size) : m.bytes[k]? = t.bytes[i + k]? := by
  obtain ⟨front, back, rfl, rfl, -⟩ := slice?_eq_some.1 h
  rw [List.append_assoc, bytes_append, bytes_append, ← length_bytes front,
    List.getElem?_append_right (Nat.le_add_right _ _), Nat.add_sub_cancel_left,
    List.getElem?_append_left (by rwa [length_bytes])]

theorem exists_firstByte (c : Char) : ∃ x : UInt8, (String.utf8EncodeChar c)[0]? = some x ∧
    (x.toNat < 128 ∨ c.toNat < 128 → x.toNat = c.toNat) := by
  have hc : c.val.toNat = c.toNat := rfl
  unfold String.utf8EncodeChar
  simp only [hc]
  split
  · refine ⟨_, rfl, fun _ ↦ ?_⟩
    rw [UInt8.toNat_ofNat']
    omega
  · -- The first byte of a longer code is 192 or more.
    split
    · refine ⟨_, rfl, ?_⟩
      rw [UInt8.toNat_ofNat']
      omega
    · split
      · refine ⟨_, rfl, ?_⟩
        rw [UInt8.toNat_ofNat']
        omega
      · refine ⟨_, rfl, ?_⟩
        rw [UInt8.toNat_ofNat']
        omega

theorem exists_byteAt (a r : Text) : (a ++ r).bytes[a.size]? = none ∧ r = [] ∨
    ∃ c r' x, r = c :: r' ∧ (a ++ r).bytes[a.size]? = some x ∧
      (x.toNat < 128 ∨ c.toNat < 128 → x.toNat = c.toNat) := by
  cases r with
  | nil =>
    refine .inl ⟨?_, rfl⟩
    rw [List.append_nil]
    exact List.getElem?_eq_none_iff.2 (Nat.le_of_eq (length_bytes a))
  | cons c r =>
    obtain ⟨x, hx, hlt⟩ := exists_firstByte c
    exact .inr ⟨c, r, x, rfl, (getElem?_bytes (k := 0) c.utf8Size_pos).trans hx, hlt⟩

theorem byteAt_eq_iff (a r : Text) {d : Char} {x : UInt8} (hx : x.toNat = d.toNat)
    (hd : d.toNat < 128) : (a ++ r).bytes[a.size]? = some x ↔ r.head? = some d := by
  rcases exists_byteAt a r with ⟨hnone, rfl⟩ | ⟨c, r, y, rfl, hy, hlt⟩
  · rw [hnone]
    exact ⟨nofun, nofun⟩
  · rw [hy, List.head?_cons, Option.some_inj, Option.some_inj, ← UInt8.toNat_inj, ← Char.toNat_inj]
    omega

theorem byteAt_any_digit (a r : Text) :
    (a ++ r).bytes[a.size]?.any (fun x ↦ 0x30 ≤ x ∧ x ≤ 0x39) = r.head?.any Char.isDigit := by
  rcases exists_byteAt a r with ⟨hnone, rfl⟩ | ⟨c, r, y, rfl, hy, hlt⟩
  · rw [hnone]
    rfl
  · rw [hy, List.head?_cons, Option.any_some, Option.any_some, Bool.eq_iff_iff, decide_eq_true_eq,
      Char.isDigit_iff_toNat, UInt8.le_iff_toNat_le, UInt8.le_iff_toNat_le]
    have hzero : (0x30 : UInt8).toNat = '0'.toNat := rfl
    have hnine : (0x39 : UInt8).toNat = '9'.toNat := rfl
    have hbound : '9'.toNat < 128 := by decide
    omega

end TemplateSqueeze.Text
