import TemplateSqueeze.Text.LineTable

namespace TemplateSqueeze.SourceMap

def wordSize : Nat := 0x100000000

/-- Stands for a line, a column or an index that is not there. -/
def absent : Nat := wordSize - 1

def wrap (n : Int) : Nat := (n % wordSize).toNat

/-- A place in a source file. Without a file it is no place at all. -/
structure Place where
  line : Nat
  column : Nat
  source : Option Text
  name : Option Text
  deriving DecidableEq, Repr

def Place.nowhere : Place := ⟨absent, absent, none, none⟩

/-- Says that the generated text at `position` comes from `place`. The places behind a ranged
token advance with the column. -/
structure Token where
  position : Position
  place : Place
  ranged : Bool := false
  deriving DecidableEq, Repr

inductive MapError where
  | badJson
  | brokenHeader
  | unfinishedNumber
  | numberTooLong
  | segmentSize (fields : Nat)
  | sourceReference (index : Nat)
  | nameReference (index : Nat)
  | incompatible
  | rangeDigit (char : Char)
  deriving DecidableEq, Repr

def MapError.message? : MapError → Option String
  | badJson => none
  | brokenHeader => some "invalid sourcemap: expected newline"
  | unfinishedNumber => some "invalid sourcemap: leftover cur/shift in vlq decode"
  | numberTooLong => some "invalid sourcemap: vlq decode caused an overflow"
  | segmentSize n => some s!"invalid sourcemap: got {n} segments, expected 4 or 5"
  | sourceReference n => some s!"invalid sourcemap: bad reference to source #{n}"
  | nameReference n => some s!"invalid sourcemap: bad reference to name #{n}"
  | incompatible => some "invalid sourcemap: encountered incompatible sourcemap format"
  | rangeDigit c => some s!"invalid sourcemap: invalid base64 character: {c}"

def Token.placeAt (t : Token) (p : Position) : Place :=
  if t.ranged then
    let ahead := wrap ((p.column : Int) - t.position.column)
    { t.place with column := min absent (t.place.column + ahead) }
  else t.place

/-- Among ordered tokens the first one at the position, or else the last one before it. -/
def lookup? (tokens : List Token) (p : Position) : Option Token :=
  match tokens.find? (·.position = p) with
  | some t => some t
  | none => (tokens.takeWhile (·.position.precedes p)).getLast?

end TemplateSqueeze.SourceMap
