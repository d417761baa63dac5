import Mathlib
import TemplateSqueeze.SourceMap.Vlq

namespace TemplateSqueeze.SourceMap.Vlq

variable {n k value shift : Nat} {i : Int} {is : List Int} {bs : List UInt8}

theorem map_sextet?_digit : ∀ n < 64, (Text.bytes [digit n]).map sextet? = [some n] := by
  decide +kernel

theorem digit_ne : ∀ n < 64, digit n ≠ ',' ∧ digit n ≠ ';' := by decide +kernel

theorem exists_bytes_digit (hn : n < 64) (t : Text) :
    ∃ b, Text.bytes (digit n :: t) = b :: Text.bytes t ∧ sextet? b = some n := by
  have h := map_sextet?_digit n hn
  obtain ⟨b, rest, hb, hn', hrest⟩ := List.map_eq_cons_iff.1 h
  obtain rfl := List.map_eq_nil_iff.1 hrest
  refine ⟨b, ?_, hn'⟩
  have happend : Text.bytes (digit n :: t) = Text.bytes [digit n] ++ Text.bytes t := by
    simp [Text.bytes]
  rw [happend, hb]
  rfl

theorem mem_encodeNat : ∀ c ∈ encodeNat n, ∃ d < 64, c = digit d := by
  fun_induction encodeNat n with
  | case1 n hn =>
    intro c hc
    exact ⟨n, by omega, List.mem_singleton.1 hc⟩
  | case2 n hn ih =>
    intro c hc
    rcases List.mem_cons.1 hc with rfl | hc
    · exact ⟨n % 32 + 32, by omega, rfl⟩
    · exact ih c hc

theorem ne_of_mem_encode : ∀ c ∈ encode i, c ≠ ',' ∧ c ≠ ';' := by
  intro c hc
  obtain ⟨d, hd, rfl⟩ := mem_encodeNat c hc
  exact digit_ne d hd

theorem encodeNat_ne_nil (n : Nat) : encodeNat n ≠ [] := by
  rw [encodeNat]
  split <;> exact List.cons_ne_nil _ _

/-- A number of `k + 1` digits, the last of which is still within 64 bits, is added to the bits that
are there already. -/
theorem decodeFrom_encodeNat (hn : n < 32 ^ (k + 1)) (hs : shift + 5 * k < 64) :
    decodeFrom value shift (Text.bytes (encodeNat n) ++ bs) =
      (decodeFrom 0 0 bs).map (signed (value + n * 2 ^ shift) :: ·) := by
  induction k generalizing n value shift with
  | zero =>
    obtain ⟨b, hb, hd⟩ := exists_bytes_digit (n := n) (by omega) []
    rw [encodeNat, if_pos (by omega), hb, List.cons_append, decodeFrom, hd]
    simp only [Option.getD_some, Nat.shiftLeft_eq]
    rw [if_neg (by omega), if_neg (by omega), Nat.mod_eq_of_lt (by omega)]
    rfl
  | succ k ih =>
    by_cases hlt : n < 32
    · obtain ⟨b, hb, hd⟩ := exists_bytes_digit (n := n) (by omega) []
      rw [encodeNat, if_pos hlt, hb, List.cons_append, decodeFrom, hd]
      simp only [Option.getD_some, Nat.shiftLeft_eq]
      rw [if_neg (by omega), if_neg (by omega), Nat.mod_eq_of_lt hlt]
      rfl
    · obtain ⟨b, hb, hd⟩ := exists_bytes_digit (n := n % 32 + 32) (by omega) (encodeNat (n / 32))
      have hdiv : n / 32 < 32 ^ (k + 1) := by
        rw [Nat.div_lt_iff_lt_mul (by omega)]
        exact hn
      have hvalue : value + (n % 32 + 32) % 32 * 2 ^ shift + n / 32 * 2 ^ (shift + 5) =
          value + n * 2 ^ shift := by
        calc value + (n % 32 + 32) % 32 * 2 ^ shift + n / 32 * 2 ^ (shift + 5)
            = value + (32 * (n / 32) + n % 32) * 2 ^ shift := by
              rw [Nat.add_mod_right, Nat.mod_mod, Nat.pow_add]
              ring
          _ = value + n * 2 ^ shift := by rw [Nat.div_add_mod]
      rw [encodeNat, if_neg hlt, hb, List.cons_append, decodeFrom, hd]
      simp only [Option.getD_some, Nat.shiftLeft_eq]
      rw [if_neg (by omega), if_pos (by omega), ih hdiv (by omega), hvalue]

theorem signed_of_sign (i : Int) :
    signed (if i < 0 then 2 * i.natAbs + 1 else 2 * i.natAbs) = i := by
  unfold signed
  split <;> split <;> omega

theorem decode_encode_append (hi : i.natAbs ≤ wordSize) :
    decode (Text.bytes (encode i) ++ bs) = (decode bs).map (i :: ·) := by
  have hn : (if i < 0 then 2 * i.natAbs + 1 else 2 * i.natAbs) < 32 ^ (6 + 1) := by
    rw [wordSize] at hi
    split <;> omega
  rw [decode, encode, decodeFrom_encodeNat hn (by omega), Nat.zero_add, Nat.pow_zero, Nat.mul_one,
    signed_of_sign]
  rfl

theorem decode_flatMap_encode (h : ∀ i ∈ is, i.natAbs ≤ wordSize) :
    decode (Text.bytes (is.flatMap encode)) = .ok is := by
  induction is with
  | nil => rfl
  | cons i is ih =>
    have happend : Text.bytes ((i :: is).flatMap encode) =
        Text.bytes (encode i) ++ Text.bytes (is.flatMap encode) := by
      simp [Text.bytes]
    rw [happend, decode_encode_append (h i List.mem_cons_self),
      ih fun j hj ↦ h j (List.mem_cons_of_mem i hj)]
    rfl

end TemplateSqueeze.SourceMap.Vlq
