import TemplateSqueeze.Json.Double

namespace TemplateSqueeze.Json

abbrev Reader := StateT Text Option

namespace Reader

def isBlank (c : Char) : Bool := c == ' ' || c == '\n' || c == '\t' || c == '\r'

def skipBlanks : Reader Unit := modify (·.dropWhile isBlank)

def peek? : Reader (Option Char) := return (← get).head?

def next : Reader Char := do
  match ← get with
  | [] => failure
  | c :: t => set t; return c

def word : Text → Reader Unit
  | [] => return
  | c :: cs => do
    if (← next) = c then word cs else failure

def hexValue? (c : Char) : Option Nat :=
  if c.isDigit then some (c.toNat - '0'.toNat)
  else if 'a' ≤ c ∧ c ≤ 'f' then some (c.toNat - 'a'.toNat + 10)
  else if 'A' ≤ c ∧ c ≤ 'F' then some (c.toNat - 'A'.toNat + 10)
  else none

def hexUnit : Reader Nat := do
  let a ← hexValue? (← next)
  let b ← hexValue? (← next)
  let c ← hexValue? (← next)
  let d ← hexValue? (← next)
  return ((a * 16 + b) * 16 + c) * 16 + d

/-- The character after `\u`; a unit of a surrogate pair needs the other one at once. -/
def unicodeEscape : Reader Char := do
  let high ← hexUnit
  if 0xDC00 ≤ high ∧ high ≤ 0xDFFF then failure
  else if 0xD800 ≤ high ∧ high ≤ 0xDBFF then
    word ['\\', 'u']
    let low ← hexUnit
    if 0xDC00 ≤ low ∧ low ≤ 0xDFFF then
      return Char.ofNat (0x10000 + (high - 0xD800) * 0x400 + (low - 0xDC00))
    else failure
  else return Char.ofNat high

def escaped : Reader Char := do
  match ← next with
  | '"' => return '"'
  | '\\' => return '\\'
  | '/' => return '/'
  | 'b' => return '\x08'
  | 'f' => return '\x0c'
  | 'n' => return '\n'
  | 'r' => return '\r'
  | 't' => return '\t'
  | 'u' => unicodeEscape
  | _ => failure

def stringRest : Nat → Reader Text
  | 0 => failure
  | fuel + 1 => do
    match ← next with
    | '"' => return []
    | '\\' => return (← escaped) :: (← stringRest fuel)
    | c => if c.toNat < 32 then failure else return c :: (← stringRest fuel)

def string : Reader Text := do
  word ['"']
  stringRest ((← get).length + 1)

def digitValue (c : Char) : Nat := c.toNat - '0'.toNat

def digits : Reader (List Nat) := do
  let ds := (← get).takeWhile Char.isDigit
  modify (·.drop ds.length)
  if ds = [] then failure else return ds.map digitValue

def exponent : Reader Int := do
  match ← peek? with
  | some '-' => discard next; return -((← digits).foldl (· * 10 + ·) 0 : Nat)
  | some '+' => discard next; return ((← digits).foldl (· * 10 + ·) 0 : Nat)
  | _ => return ((← digits).foldl (· * 10 + ·) 0 : Nat)

def number : Reader Number := do
  let negative := (← peek?) = some '-'
  if negative then discard next
  let whole ← digits
  if whole.length ≠ 1 ∧ whole.head? = some 0 then failure
  let mut fraction := []
  if (← peek?) = some '.' then
    discard next
    fraction ← digits
  let mut scale := none
  if (← peek?) = some 'e' ∨ (← peek?) = some 'E' then
    discard next
    scale := some (← exponent)
  ofDigits? negative whole fraction scale

mutual

/-- A value, with `depth` levels of nesting still allowed. -/
def value (depth : Nat) : Nat → Reader Value
  | 0 => failure
  | fuel + 1 => do
    skipBlanks
    match ← peek? with
    | some 'n' => word "null".toList; return .null
    | some 't' => word "true".toList; return .bool true
    | some 'f' => word "false".toList; return .bool false
    | some '"' => return .string (← string)
    | some '[' =>
      discard next
      skipBlanks
      match depth, ← peek? with
      | 0, _ => failure
      | _ + 1, some ']' => discard next; return .array []
      | depth + 1, _ => return .array (← items depth fuel)
    | some '\x7b' =>
      discard next
      skipBlanks
      match depth, ← peek? with
      | 0, _ => failure
      | _ + 1, some '\x7d' => discard next; return .object []
      | depth + 1, _ => return .object (← members depth fuel)
    | _ => return .number (← number)

def items (depth : Nat) : Nat → Reader (List Value)
  | 0 => failure
  | fuel + 1 => do
    let v ← value depth fuel
    skipBlanks
    match ← next with
    | ',' => return v :: (← items depth fuel)
    | ']' => return [v]
    | _ => failure

def members (depth : Nat) : Nat → Reader (List (Text × Value))
  | 0 => failure
  | fuel + 1 => do
    skipBlanks
    let key ← string
    skipBlanks
    word [':']
    let v ← value depth fuel
    skipBlanks
    match ← next with
    | ',' => return (key, v) :: (← members depth fuel)
    | '\x7d' => return [(key, v)]
    | _ => failure

end

end Reader

def parse? (t : Text) : Option Value :=
  match (Reader.value 127 (2 * t.length + 2)).run t with
  | some (v, rest) => if rest.all Reader.isBlank then some v else none
  | none => none

end TemplateSqueeze.Json
