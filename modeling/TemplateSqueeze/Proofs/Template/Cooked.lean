import Mathlib
import TemplateSqueeze.Proofs.Template.Scan
import TemplateSqueeze.Template.Literal

namespace TemplateSqueeze.Template

open Text

def hexValue (c : Char) : Nat :=
  if c.isDigit then c.toNat - 48 else if 'a' ≤ c then c.toNat - 87 else c.toNat - 55

def hexNumber (digits : Text) : Nat := digits.foldl (fun n c ↦ 16 * n + hexValue c) 0

def utf16 (n : Nat) : List Nat :=
  if n < 0x10000 then [n] else [0xD800 + (n - 0x10000) / 0x400, 0xDC00 + (n - 0x10000) % 0x400]

def escapedChar : Char → Char
  | 'b' => '\x08'
  | 't' => '\t'
  | 'n' => '\n'
  | 'v' => '\x0b'
  | 'f' => '\x0c'
  | 'r' => '\r'
  | c => c

def fixedEscape? (count : Nat) (t : Text) : Option (List Nat × Text) :=
  if (t.take count).length = count ∧ (t.take count).all isHexDigit then
    some ([hexNumber (t.take count)], t.drop count)
  else none

def bracedEscape? (t : Text) : Option (List Nat × Text) :=
  let digits := t.takeWhile isHexDigit
  match t.drop digits.length with
  | '\x7d' :: rest =>
    if digits ≠ [] ∧ hexNumber digits ≤ 0x10FFFF then some (utf16 (hexNumber digits), rest)
    else none
  | _ => none

/-- What an escape cooks to, given the text behind its backslash, and what follows it. A line
continuation cooks to nothing. -/
def escape? : Text → Option (List Nat × Text)
  | [] => none
  | c :: t =>
    if c = 'u' then if t.head? = some '\x7b' then bracedEscape? t.tail else fixedEscape? 4 t
    else if c = 'x' then fixedEscape? 2 t
    else if c = '0' then if t.head?.any Char.isDigit then none else some ([0], t)
    else if c.isDigit then none
    else if isLineTerminator c then
      some ([], if c = '\r' ∧ t.head? = some '\n' then t.tail else t)
    else some (utf16 (escapedChar c).toNat, t)

def element? : Text → Option (List Nat × Text)
  | [] => none
  | c :: t =>
    if c = '\\' then escape? t
    else if c = mark then none
    else if c = '$' ∧ t.head? = some '\x7b' then none
    else if c = '\r' then some ([10], if t.head? = some '\n' then t.tail else t)
    else some (utf16 c.toNat, t)

theorem takeWhile_append_of_all {p : Char → Bool} {ds : Text} {c : Char} (h : ds.all p)
    (hc : p c = false) (r : Text) : (ds ++ c :: r).takeWhile p = ds := by
  rw [List.takeWhile_append_of_pos (List.all_eq_true.1 h), List.takeWhile_cons,
    if_neg (by simp [hc]), List.append_nil]

theorem bracedEscape?_eq_some {t r : Text} {x : List Nat} : bracedEscape? t = some (x, r) ↔
    ∃ ds : Text, t = ds ++ '\x7d' :: r ∧ ds.all isHexDigit ∧ ds ≠ [] ∧ hexNumber ds ≤ 0x10FFFF ∧
      x = utf16 (hexNumber ds) := by
  constructor
  · intro h
    simp only [bracedEscape?] at h
    split at h
    · next rest hr =>
      obtain ⟨⟨hne, hle⟩, h⟩ := Option.ite_none_right_eq_some.1 h
      cases h
      refine ⟨_, ?_, List.all_takeWhile, hne, hle, rfl⟩
      rw [← hr]
      exact (List.prefix_iff_eq_append.1 (List.takeWhile_prefix _)).symm
    · cases h
  · rintro ⟨ds, rfl, hall, hne, hle, rfl⟩
    have ht := takeWhile_append_of_all (c := '\x7d') hall (by decide) r
    simp only [bracedEscape?, ht, List.drop_left]
    rw [if_pos ⟨hne, hle⟩]

theorem fixedEscape?_eq_some {count : Nat} {t r : Text} {x : List Nat} :
    fixedEscape? count t = some (x, r) ↔
      ∃ ds : Text, t = ds ++ r ∧ ds.length = count ∧ ds.all isHexDigit ∧ x = [hexNumber ds] := by
  constructor
  · intro h
    obtain ⟨⟨hlen, hall⟩, h⟩ := Option.ite_none_right_eq_some.1 h
    cases h
    exact ⟨_, (List.take_append_drop count t).symm, hlen, hall, rfl⟩
  · rintro ⟨ds, rfl, rfl, hall, rfl⟩
    simp [fixedEscape?, hall]

inductive Escape (r : Text) : Text → List Nat → Prop
  | braced {ds : Text} : ds.all isHexDigit → ds ≠ [] → hexNumber ds ≤ 0x10FFFF →
    Escape r ('u' :: '\x7b' :: (ds ++ '\x7d' :: r)) (utf16 (hexNumber ds))
  | unicode {ds : Text} : ds.all isHexDigit → ds.length = 4 →
    Escape r ('u' :: (ds ++ r)) [hexNumber ds]
  | hex {ds : Text} : ds.all isHexDigit → ds.length = 2 → Escape r ('x' :: (ds ++ r)) [hexNumber ds]
  | null : r.head?.any Char.isDigit = false → Escape r ('0' :: r) [0]
  | continuedPair : Escape r ('\r' :: '\n' :: r) []
  | continuation {c : Char} : isLineTerminator c → ¬ (c = '\r' ∧ r.head? = some '\n') →
    Escape r (c :: r) []
  | char {c : Char} : c ≠ 'u' → c ≠ 'x' → c.isDigit = false → isLineTerminator c = false →
    Escape r (c :: r) (utf16 (escapedChar c).toNat)

theorem escape_of_escape? {t r : Text} {x : List Nat} (h : escape? t = some (x, r)) :
    Escape r t x := by
  cases t with
  | nil => cases h
  | cons c t =>
    rw [escape?] at h
    split at h
    · next hc =>
      subst hc
      split at h
      · next hbrace =>
        obtain ⟨t, rfl⟩ := List.head?_eq_some_iff.1 hbrace
        obtain ⟨ds, ht, hall, hne, hle, rfl⟩ := bracedEscape?_eq_some.1 h
        rw [List.tail_cons] at ht
        subst ht
        exact .braced hall hne hle
      · obtain ⟨ds, rfl, hlen, hall, rfl⟩ := fixedEscape?_eq_some.1 h
        exact .unicode hall hlen
    · next hu =>
      split at h
      · next hc =>
        subst hc
        obtain ⟨ds, rfl, hlen, hall, rfl⟩ := fixedEscape?_eq_some.1 h
        exact .hex hall hlen
      · next hx =>
        split at h
        · next hc =>
          subst hc
          obtain ⟨hdigit, h⟩ := Option.ite_none_left_eq_some.1 h
          cases h
          exact .null (Bool.eq_false_iff.2 hdigit)
        · obtain ⟨hdigit, h⟩ := Option.ite_none_left_eq_some.1 h
          split at h
          · next hl =>
            cases h
            split
            · next hpair =>
              obtain ⟨rfl, hfeed⟩ := hpair
              obtain ⟨t, rfl⟩ := List.head?_eq_some_iff.1 hfeed
              exact .continuedPair
            · next hpair => exact .continuation hl hpair
          · next hl =>
            cases h
            exact .char hu hx (Bool.eq_false_iff.2 hdigit) (Bool.eq_false_iff.2 hl)

theorem length_of_escape? {t r : Text} {x : List Nat} (h : escape? t = some (x, r)) :
    r.length < t.length := by
  cases escape_of_escape? h <;>
    simp only [List.length_cons, List.length_append] <;> omega

theorem length_of_element? {c : Char} {t r : Text} {x : List Nat}
    (h : element? (c :: t) = some (x, r)) : r.length < (c :: t).length := by
  rw [List.length_cons, Nat.lt_succ_iff]
  rw [element?] at h
  split at h
  · exact Nat.le_of_lt (length_of_escape? h)
  · obtain ⟨-, h⟩ := Option.ite_none_left_eq_some.1 h
    obtain ⟨-, h⟩ := Option.ite_none_left_eq_some.1 h
    split at h
    · cases h
      split
      · rw [List.length_tail]
        omega
      · exact Nat.le_refl _
    · cases h
      exact Nat.le_refl _

/-- The cooked value of a raw text, if it is one: all of its backslashes begin an escape or a line
continuation, and no mark and no opening substitution stands in it unescaped. -/
def cook? : Text → Option (List Nat)
  | [] => some []
  | c :: t =>
    match _h : element? (c :: t) with
    | some (units, rest) => (cook? rest).map (units ++ ·)
    | none => none
termination_by t => t.length
decreasing_by exact length_of_element? _h

def withoutRuns : List Nat → List Nat
  | [] => []
  | n :: ns =>
    if n = 32 ∧ ns.head? = some 32 then withoutRuns (ns.dropWhile (· == 32))
    else n :: withoutRuns ns
termination_by ns => ns.length
decreasing_by
  · have := (List.dropWhile_sublist (· == 32) (l := ns)).length_le
    simp only [List.length_cons]
    omega
  · simp

theorem char_le_iff {c d : Char} : c ≤ d ↔ c.toNat ≤ d.toNat := by
  rw [Char.le_def, UInt32.le_iff_toNat_le]; rfl

theorem isHexDigit_iff {c : Char} : isHexDigit c ↔ 48 ≤ c.toNat ∧ c.toNat ≤ 57 ∨
    97 ≤ c.toNat ∧ c.toNat ≤ 102 ∨ 65 ≤ c.toNat ∧ c.toNat ≤ 70 := by
  simp only [isHexDigit, Bool.or_eq_true, Bool.and_eq_true, decide_eq_true_eq,
    Char.isDigit_iff_toNat, char_le_iff, Char.reduceToNat, or_assoc]

theorem hexValue_spec {c : Char} (h : isHexDigit c) :
    hexValue c < 16 ∧ (hexValue c = 0 ↔ c = '0') ∧ (hexValue c = 2 ↔ c = '2') := by
  rw [isHexDigit_iff] at h
  simp only [hexValue, Char.isDigit_iff_toNat, char_le_iff, ← Char.toNat_inj, Char.reduceToNat]
  split
  · omega
  · split <;> omega

theorem foldl_hexValue (ds : Text) (n : Nat) :
    ds.foldl (fun n c ↦ 16 * n + hexValue c) n = 16 ^ ds.length * n + hexNumber ds := by
  induction ds generalizing n with
  | nil => simp [hexNumber]
  | cons d ds ih =>
    rw [hexNumber, List.foldl_cons, List.foldl_cons, ih, ih (16 * 0 + hexValue d)]
    rw [List.length_cons, Nat.pow_succ, Nat.mul_zero, Nat.zero_add, Nat.mul_add, ← Nat.mul_assoc,
      Nat.add_assoc]

theorem hexNumber_cons (d : Char) (ds : Text) :
    hexNumber (d :: ds) = 16 ^ ds.length * hexValue d + hexNumber ds := by
  rw [hexNumber, List.foldl_cons, foldl_hexValue, Nat.mul_zero, Nat.zero_add]

theorem namesSpace_iff {ds : Text} (h : ds.all isHexDigit) : namesSpace ds ↔ hexNumber ds = 32 := by
  rw [namesSpace, h, Bool.true_and, beq_iff_eq]
  induction ds with
  | nil => decide
  | cons d ds ih =>
    rw [List.all_cons, Bool.and_eq_true] at h
    obtain ⟨hd, hzero, htwo⟩ := hexValue_spec h.1
    rw [hexNumber_cons, List.dropWhile_cons]
    by_cases hd0 : d = '0'
    · rw [if_pos (by simp [hd0]), ih h.2, hzero.2 hd0]
      omega
    · rw [if_neg (by simpa using hd0), List.cons.injEq]
      have hpos : hexValue d ≠ 0 := fun h ↦ hd0 (hzero.1 h)
      cases ds with
      | nil =>
        simp [hexNumber]
        omega
      | cons e ds =>
        rw [List.all_cons, Bool.and_eq_true] at h
        obtain ⟨he, hezero, -⟩ := hexValue_spec h.2.1
        rw [hexNumber_cons, List.cons.injEq, ← htwo, ← hezero]
        cases ds with
        | nil =>
          simp [hexNumber]
          omega
        | cons f ds =>
          have hlen : 16 ^ 2 ≤ 16 ^ (e :: f :: ds).length :=
            Nat.pow_le_pow_right (by decide) (by simp)
          have hbig := Nat.mul_le_mul hlen (Nat.one_le_iff_ne_zero.2 hpos)
          constructor
          · rintro ⟨-, h⟩
            simp at h
          · intro h
            omega

theorem utf16_ne_nil (n : Nat) : utf16 n ≠ [] := by
  unfold utf16
  split <;> simp

theorem mem_utf16 {n : Nat} : 32 ∈ utf16 n ↔ n = 32 := by
  unfold utf16
  split
  · rw [List.mem_singleton, eq_comm]
  · simp only [List.mem_cons, List.not_mem_nil, or_false]
    omega

theorem bracedSpace?_digits {ds : Text} (h : ds.all isHexDigit) (r : Text) :
    bracedSpace? ('u' :: '\x7b' :: (ds ++ '\x7d' :: r)) =
      if namesSpace ds then some ('u' :: '\x7b' :: ds ++ ['\x7d']) else none := by
  have hne : ds.all (· != '\x7d') := by
    refine List.all_eq_true.2 fun c hc ↦ ?_
    have := List.all_eq_true.1 h c hc
    rw [bne_iff_ne]
    rintro rfl
    revert this
    decide
  have ht := takeWhile_append_of_all (c := '\x7d') hne (by decide) r
  simp [bracedSpace?, ht]

theorem eq_replicate_append_of_namesSpace {ds : Text} (h : namesSpace ds) :
    ds = List.replicate (ds.length - 2) '0' ++ ['2', '0'] := by
  rw [namesSpace, Bool.and_eq_true, beq_iff_eq] at h
  have hsplit := List.takeWhile_append_dropWhile (p := (· == '0')) (l := ds)
  rw [h.2] at hsplit
  have hlen := congrArg List.length hsplit
  rw [List.length_append] at hlen
  have hzero : ds.takeWhile (· == '0') = List.replicate (ds.takeWhile (· == '0')).length '0' := by
    refine List.eq_replicate_of_mem fun c hc ↦ ?_
    have := List.all_eq_true.1 (List.all_takeWhile (p := (· == '0')) (l := ds)) c hc
    exact beq_iff_eq.1 this
  rw [show ds.length - 2 = (ds.takeWhile (· == '0')).length by simp at hlen; omega, ← hzero, hsplit]

theorem eq_replicate_append_of_mem {ds : Text} (hall : ds.all isHexDigit)
    (h : 32 ∈ [hexNumber ds]) : ds = List.replicate (ds.length - 2) '0' ++ ['2', '0'] :=
  eq_replicate_append_of_namesSpace ((namesSpace_iff hall).2 (List.mem_singleton.1 h).symm)

theorem escapedChar_eq_space {c : Char} (h : escapedChar c = ' ') : c = ' ' := by
  unfold escapedChar at h
  split at h <;> first | exact h | cases h

theorem all_of_namesSpace {ds : Text} (h : namesSpace ds) : ds.all isHexDigit := by
  rw [namesSpace, Bool.and_eq_true] at h
  exact h.1

theorem escape?_bracedSpace {ds : Text} (h : namesSpace ds) (r : Text) :
    escape? ('u' :: '\x7b' :: ds ++ ['\x7d'] ++ r) = some ([32], r) := by
  have hn := (namesSpace_iff (all_of_namesSpace h)).1 h
  have he : escape? ('u' :: '\x7b' :: ds ++ ['\x7d'] ++ r) =
      bracedEscape? (ds ++ ['\x7d'] ++ r) := rfl
  rw [he]
  refine bracedEscape?_eq_some.2 ⟨ds, by simp, all_of_namesSpace h, ?_, by omega, by rw [hn]; rfl⟩
  rintro rfl
  cases hn

theorem escape?_of_single {c : Char} {t r : Text} {x : List Nat}
    (h : escape? (c :: t) = some (x, r)) (hb : bracedSpace? (c :: t) = none) (hspace : c ≠ ' ')
    (hx : ∀ tail, c = 'x' → t ≠ '2' :: '0' :: tail)
    (hu : ∀ tail, c = 'u' → t ≠ '0' :: '0' :: '2' :: '0' :: tail)
    (hpair : ∀ tail, c = '\r' → t ≠ '\n' :: tail) :
    (isLineTerminator c → x = [] ∧ t = r) ∧ (isLineTerminator c = false → x ≠ [] ∧ 32 ∉ x) := by
  cases escape_of_escape? h with
  | @braced ds hall =>
    refine ⟨nofun, fun _ ↦ ⟨utf16_ne_nil _, fun hm ↦ ?_⟩⟩
    rw [bracedSpace?_digits hall, if_pos ((namesSpace_iff hall).2 (mem_utf16.1 hm))] at hb
    cases hb
  | @unicode ds hall hlen =>
    refine ⟨nofun, fun _ ↦ ⟨List.cons_ne_nil _ _, fun hm ↦ hu r rfl ?_⟩⟩
    rw [eq_replicate_append_of_mem hall hm, hlen]
    rfl
  | @hex ds hall hlen =>
    refine ⟨nofun, fun _ ↦ ⟨List.cons_ne_nil _ _, fun hm ↦ hx r rfl ?_⟩⟩
    rw [eq_replicate_append_of_mem hall hm, hlen]
    rfl
  | null => exact ⟨nofun, fun _ ↦ by decide⟩
  | continuedPair => exact absurd rfl (hpair r rfl)
  | continuation hl => exact ⟨fun _ ↦ ⟨rfl, rfl⟩, fun hl' ↦ absurd hl (Bool.eq_false_iff.1 hl')⟩
  | char _ _ _ hl =>
    refine ⟨fun hl' ↦ absurd hl' (Bool.eq_false_iff.1 hl), fun _ ↦ ⟨utf16_ne_nil _, fun hm ↦ ?_⟩⟩
    exact hspace (escapedChar_eq_space (Char.toNat_inj.1 (mem_utf16.1 hm)))

/-- The scan's unit behind a backslash tells what the escape cooks to: a space, nothing, or units
that are no spaces. -/
theorem escape?_escapeBody {t r : Text} {x : List Nat} (h : escape? t = some (x, r)) :
    ((escapeBody t).1 = .space → x = [32] ∧ t = (escapeBody t).2 ++ r) ∧
    ((escapeBody t).1 = .continuation → x = [] ∧ t = (escapeBody t).2 ++ r) ∧
    ((escapeBody t).1 = .other → x ≠ [] ∧ 32 ∉ x) := by
  generalize he : escapeBody t = b
  unfold escapeBody at he
  split at he
  · next body _ hb =>
    subst he
    obtain ⟨ds, r', rfl, rfl, hs, -⟩ := bracedSpace?_eq_some hb
    rw [escape?_bracedSpace hs] at h
    cases h
    exact ⟨fun _ ↦ ⟨rfl, rfl⟩, nofun, nofun⟩
  · next t _ =>
    subst he
    have he' : escape? (' ' :: t) = some ([32], t) := rfl
    rw [he'] at h
    cases h
    exact ⟨fun _ ↦ ⟨rfl, rfl⟩, nofun, nofun⟩
  · next t _ =>
    subst he
    have he' : escape? ('x' :: '2' :: '0' :: t) = some ([32], t) := rfl
    rw [he'] at h
    cases h
    exact ⟨fun _ ↦ ⟨rfl, rfl⟩, nofun, nofun⟩
  · next t _ =>
    subst he
    have he' : escape? ('u' :: '0' :: '0' :: '2' :: '0' :: t) = some ([32], t) := rfl
    rw [he'] at h
    cases h
    exact ⟨fun _ ↦ ⟨rfl, rfl⟩, nofun, nofun⟩
  · next t _ =>
    subst he
    have he' : escape? ('\r' :: '\n' :: t) = some ([], t) := rfl
    rw [he'] at h
    cases h
    exact ⟨nofun, fun _ ↦ ⟨rfl, rfl⟩, nofun⟩
  · next c t hspace hx hu hpair hb =>
    subst he
    obtain ⟨hnothing, hunits⟩ := escape?_of_single h hb hspace hx hu hpair
    by_cases hl : isLineTerminator c
    · rw [if_pos hl]
      exact ⟨nofun, fun _ ↦ ⟨(hnothing hl).1, congrArg (c :: ·) (hnothing hl).2⟩, nofun⟩
    · rw [if_neg hl]
      exact ⟨nofun, nofun, fun _ ↦ hunits (Bool.eq_false_iff.2 hl)⟩
  · cases h

theorem element?_first {c : Char} {t r : Text} {x : List Nat}
    (h : element? (c :: t) = some (x, r)) :
    ((Lexeme.first c t).kind = .space → x = [32] ∧ c :: t = (Lexeme.first c t).text ++ r) ∧
    ((Lexeme.first c t).kind = .continuation → x = [] ∧ c :: t = (Lexeme.first c t).text ++ r) ∧
    ((Lexeme.first c t).kind = .other → x ≠ [] ∧ 32 ∉ x) := by
  rw [element?] at h
  unfold Lexeme.first
  split at h
  · next hc =>
    subst hc
    obtain ⟨hs, hk, ho⟩ := escape?_escapeBody h
    rw [if_neg (by decide), if_pos rfl]
    exact ⟨fun hkind ↦ ⟨(hs hkind).1, congrArg ('\\' :: ·) (hs hkind).2⟩,
      fun hkind ↦ ⟨(hk hkind).1, congrArg ('\\' :: ·) (hk hkind).2⟩, ho⟩
  · next hc =>
    obtain ⟨-, h⟩ := Option.ite_none_left_eq_some.1 h
    obtain ⟨-, h⟩ := Option.ite_none_left_eq_some.1 h
    rw [if_neg hc]
    split at h
    · next hr =>
      subst hr
      cases h
      exact ⟨nofun, nofun, fun _ ↦ by decide⟩
    · cases h
      by_cases hspace : c = ' '
      · subst hspace
        exact ⟨fun _ ↦ ⟨rfl, rfl⟩, nofun, nofun⟩
      · rw [if_neg hspace]
        refine ⟨nofun, nofun, fun _ ↦ ⟨utf16_ne_nil _, fun hm ↦ ?_⟩⟩
        exact hspace (Char.toNat_inj.1 (mem_utf16.1 hm))

theorem not_mem_of_element? {c : Char} {t r : Text} {x : List Nat}
    (h : element? (c :: t) = some (x, r)) (hk : (Lexeme.first c t).kind ≠ .space) : 32 ∉ x := by
  obtain ⟨-, hcontinuation, hother⟩ := element?_first h
  cases hkind : (Lexeme.first c t).kind with
  | space => exact absurd hkind hk
  | continuation => simp [(hcontinuation hkind).1]
  | other => exact (hother hkind).2

end TemplateSqueeze.Template
