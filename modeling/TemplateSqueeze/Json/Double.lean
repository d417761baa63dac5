import TemplateSqueeze.Json.Basic

namespace TemplateSqueeze.Json

/-- A positive double as `mantissa * 2 ^ exponent`, with the interval of reals that round to it. -/
structure Binary where
  mantissa : Nat
  exponent : Int

namespace Binary

def hiddenBit : Nat := Nat.pow 2 52

def ofFloat (x : Float) : Binary :=
  let bits : Nat := x.toBits.toNat
  let fraction : Nat := bits % hiddenBit
  let biased : Nat := bits / hiddenBit % 2048
  if biased = 0 then ⟨fraction, -1074⟩ else ⟨fraction + hiddenBit, (biased : Int) - 1075⟩

/-- The value, its lower and its upper neighbour's midpoint as numerators over one denominator,
scaled by `10 ^ -power`. The gap below a power of two is half as wide. -/
def scaled (b : Binary) (power : Int) : Nat × Nat × Nat × Nat :=
  let lowWidth := if b.mantissa = hiddenBit ∧ b.exponent ≠ -1074 then 1 else 2
  let num := 4 * b.mantissa
  let up := Nat.pow 2 (b.exponent - power).toNat * Nat.pow 5 (-power).toNat
  let down := Nat.pow 2 (power - b.exponent).toNat * Nat.pow 5 power.toNat
  (num * up, (num - lowWidth) * up, (num + 2) * up, 4 * down)

/-- The whole number of units `10 ^ power` nearest to the value, if one lies in the interval of
reals that round to it; a tie goes to the even one. -/
def onGrid? (b : Binary) (power : Int) : Option Nat :=
  let (value, low, high, den) := b.scaled power
  let closed := b.mantissa % 2 = 0
  let inside (k : Nat) : Bool :=
    if closed then low ≤ k * den ∧ k * den ≤ high else low < k * den ∧ k * den < high
  let floor := value / den
  let nearer :=
    if 2 * (value - floor * den) < den then floor
    else if den < 2 * (value - floor * den) then floor + 1
    else if floor % 2 = 0 then floor else floor + 1
  if nearer ≠ 0 ∧ inside nearer then some nearer
  else if floor ≠ 0 ∧ inside floor then some floor
  else if inside (floor + 1) then some (floor + 1)
  else none

def search (b : Binary) (power : Int) : Nat → Nat × Int
  | 0 => (b.mantissa, 0)
  | fuel + 1 =>
    match b.onGrid? power with
    | some k => (k, power)
    | none => search b (power - 1) fuel

def shortest (b : Binary) : Nat × Int := b.search 309 640

end Binary

def decimalDigits (n : Nat) : Text := Nat.toDigits 10 n

/-- A significand of digits with the power of ten behind its last one: positional from 1e-5 up to
below 1e16 and always with a point, else in scientific notation. -/
def layoutDouble (digits : Text) (power : Int) : Text :=
  let count : Int := digits.length
  let point := count + power
  if 0 ≤ power ∧ point ≤ 16 then digits ++ List.replicate power.toNat '0' ++ ['.', '0']
  else if 0 < point ∧ point ≤ 16 then
    digits.take point.toNat ++ ['.'] ++ digits.drop point.toNat
  else if -5 < point ∧ point ≤ 0 then
    ['0', '.'] ++ List.replicate (-point).toNat '0' ++ digits
  else
    let exponent := (toString (point - 1)).toList
    match digits with
    | [d] => d :: 'e' :: exponent
    | d :: ds => d :: '.' :: ds ++ 'e' :: exponent
    | [] => []

def doubleText (x : Float) : Text :=
  let negative := x.toBits.toNat / Nat.pow 2 63 = 1
  let sign := if negative then ['-'] else []
  let b := Binary.ofFloat x
  if b.mantissa = 0 then sign ++ ['0', '.', '0']
  else
    let (k, power) := b.shortest
    sign ++ layoutDouble (decimalDigits k) power

def Number.text : Number → Text
  | .whole n => (toString n).toList
  | .double x => doubleText x

def powerOfTen (n : Nat) : Float := Float.ofScientific 1 false n

/-- Divides or multiplies by powers of ten no greater than 1e308 each; `none` when the result is
too large for a double. -/
def scaleByTen? (x : Float) (exponent : Int) : Nat → Option Float
  | 0 => some x
  | fuel + 1 =>
    if exponent.natAbs ≤ 308 then
      if exponent < 0 then some (x / powerOfTen exponent.natAbs)
      else
        let y := x * powerOfTen exponent.natAbs
        if y.isInf then none else some y
    else if x == 0 then some x
    else if 0 ≤ exponent then none
    else scaleByTen? (x / powerOfTen 308) (exponent + 308) fuel

/-- Appends digits to a significand as long as it fits 64 bits, and says how many did not fit. -/
def accumulate (value : Nat) : List Nat → Nat × Nat
  | [] => (value, 0)
  | d :: ds =>
    if value * 10 + d < Nat.pow 2 64 then accumulate (value * 10 + d) ds
    else (value, ds.length + 1)

def double? (negative : Bool) (value : Nat) (exponent : Int) : Option Number :=
  (scaleByTen? value.toUInt64.toFloat exponent 8).map fun x ↦ .double (if negative then -x else x)

/-- The number that whole digits, a fraction and an exponent stand for; `none` if it is too large.
Whole digits that do not fit count as zeros, and a fraction ends where it stops fitting. -/
def ofDigits? (negative : Bool) (digits : List Nat) (fraction : List Nat) (exponent : Option Int) :
    Option Number :=
  let (whole, excess) := accumulate 0 digits
  if fraction = [] ∧ exponent = none then
    if excess ≠ 0 then double? negative whole excess
    else if !negative then some (.whole whole)
    else if whole ≠ 0 ∧ whole ≤ Nat.pow 2 63 then some (.whole (-whole))
    else double? true whole 0
  else
    let (value, unread) := accumulate whole fraction
    let scale : Int := excess - (fraction.length - unread : Nat)
    match exponent with
    | none => double? negative value scale
    | some e =>
      if e.natAbs < Nat.pow 2 31 then double? negative value (scale + e)
      else if value ≠ 0 ∧ 0 < e then none
      else double? negative 0 0

end TemplateSqueeze.Json
