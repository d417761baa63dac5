import TemplateSqueeze.SourceMap.Read
import TemplateSqueeze.SourceMap.Write
import TemplateSqueeze.Edit.Joint

namespace TemplateSqueeze.SourceMap

/-- Two texts, of which the first was edited into the second, and where the bytes of that came
from. -/
structure Change where
  input : LineTable
  output : LineTable
  inputSize : Nat
  origins : List Nat

namespace Change

/-- Only as many origins count as the output has bytes. -/
def ofEdits (input output : Text) (edits : List Edit) : Change where
  input := .ofText input
  output := .ofText output
  inputSize := input.size
  origins := (Edit.spliceOrigins input.size edits).take output.size

def jointOrigins (c : Change) : List (Nat × Nat) :=
  let origins := c.origins.toArray
  (joints c.output.startsLine c.origins).filterMap fun offset ↦ origins[offset]?.map (offset, ·)

def freshTokens (c : Change) (name : Text) : List Token :=
  c.jointOrigins.map fun (offset, origin) ↦
    let p := c.input.positionOf origin
    ⟨c.output.positionOf offset, ⟨p.line, p.column, some name, none⟩, false⟩

/-- Where the text at a token's position has gone, if it is still there. -/
def moved? (c : Change) (destinations : Array (Option Nat)) (t : Token) : Option Token := do
  let inputByte ← c.input.offsetOf? t.position
  let outputByte ← (← destinations[inputByte]?)
  return ⟨c.output.positionOf outputByte, t.place, false⟩

def lookedUp (c : Change) (tokens : List Token) (offset origin : Nat) : Token :=
  let p := c.input.positionOf origin
  let place :=
    match lookup? tokens p with
    | some t => t.placeAt p
    | none => .nowhere
  ⟨c.output.positionOf offset, place, false⟩

def candidates (c : Change) (tokens : List Token) : List Token :=
  let slots := destinations c.inputSize c.origins
  tokens.filterMap (c.moved? slots) ++ c.jointOrigins.map fun (offset, origin) ↦
    c.lookedUp tokens offset origin

end Change

def Token.isMapped (t : Token) : Bool := t.place.line != absent

/-- By position, and of two tokens at one position the mapped one first. -/
def Token.upTo (a b : Token) : Bool :=
  a.position.precedes b.position ||
    (a.position = b.position && (a.isMapped || !b.isMapped))

def dropRepeated : List Token → List Token
  | [] => []
  | [t] => [t]
  | t :: u :: ts =>
    if t.position = u.position then dropRepeated (t :: ts) else t :: dropRepeated (u :: ts)
termination_by ts => ts.length

/-- One token for each position, the first of the best. -/
def settled (tokens : List Token) : List Token := dropRepeated (tokens.mergeSort Token.upTo)

def create (input output fileName : Text) (edits : List Edit) : Text :=
  write (some (fileName, input)) ((Change.ofEdits input output edits).freshTokens fileName)

def carryTokens (input output : Text) (edits : List Edit) (tokens : List Token) : List Token :=
  settled ((Change.ofEdits input output edits).candidates tokens)

def carry (input output map : Text) (edits : List Edit) : Except MapError Text := do
  return write none (carryTokens input output edits (← read map))

end TemplateSqueeze.SourceMap
