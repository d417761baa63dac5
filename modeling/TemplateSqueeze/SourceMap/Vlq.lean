import TemplateSqueeze.SourceMap.Basic

namespace TemplateSqueeze.SourceMap.Vlq

def alphabet : Text := "ABCDEFGHIJKLMNOPQRSTUVWXYZabcdefghijklmnopqrstuvwxyz0123456789+/".toList

def digit (n : Nat) : Char := alphabet.getD n 'A'

def sextet? (b : UInt8) : Option Nat :=
  let n := b.toNat
  if 65 ≤ n ∧ n ≤ 90 then some (n - 65)
  else if 97 ≤ n ∧ n ≤ 122 then some (n - 71)
  else if 48 ≤ n ∧ n ≤ 57 then some (n + 4)
  else if n = 43 then some 62
  else if n = 47 then some 63
  else none

def encodeNat (n : Nat) : Text :=
  if n < 32 then [digit n] else digit (n % 32 + 32) :: encodeNat (n / 32)
termination_by n
decreasing_by omega

def encode (n : Int) : Text := encodeNat (if n < 0 then 2 * n.natAbs + 1 else 2 * n.natAbs)

def signed (n : Nat) : Int := if n % 2 = 1 then -(n / 2 : Nat) else (n / 2 : Nat)

/-- Reads the numbers of a segment, `value` being the bits of the current one so far. Any other
byte counts as a digit with all bits set. A number may not reach beyond 64 bits. -/
def decodeFrom (value shift : Nat) : List UInt8 → Except MapError (List Int)
  | [] => if value = 0 ∧ shift = 0 then .ok [] else .error .unfinishedNumber
  | b :: bs =>
    let d := (sextet? b).getD 63
    let value := value + (d % 32) <<< shift
    if 64 ≤ shift then .error .numberTooLong
    else if 32 ≤ d then decodeFrom value (shift + 5) bs
    else (decodeFrom 0 0 bs).map (signed value :: ·)

def decode (bytes : List UInt8) : Except MapError (List Int) := decodeFrom 0 0 bytes

end TemplateSqueeze.SourceMap.Vlq
