import TemplateSqueeze.Text.Basic

namespace TemplateSqueeze.Command

structure Switch where
  long : Text
  letter : Option Char
  valued : Bool

inductive Argument where
  | flag (long : Text)
  | setting (long value : Text)
  | operand (value : Text)
  deriving DecidableEq, Repr

def isValue (t : Text) : Bool := t.head? != some '-' || t == ['-']

def ofLetters (switches : List Switch) : Text → Option (List Argument × Option Text)
  | [] => some ([], none)
  | c :: t => do
    let s ← switches.find? (·.letter = some c)
    if s.valued then
      match t with
      | [] => return ([], some s.long)
      | '=' :: value | value => return ([.setting s.long value], none)
    else
      let (rest, waiting) ← ofLetters switches t
      return (.flag s.long :: rest, waiting)

def ofLong (switches : List Switch) (t : Text) : Option (List Argument × Option Text) := do
  let name := t.takeWhile (· != '=')
  let s ← switches.find? (·.long = name)
  match t.drop name.length with
  | _ :: value => if s.valued then return ([.setting s.long value], none) else failure
  | [] => return if s.valued then ([], some s.long) else ([.flag s.long], none)

def ofDashed (switches : List Switch) : Text → Option (List Argument × Option Text)
  | '-' :: '-' :: long => ofLong switches long
  | t => ofLetters switches (t.drop 1)

/-- What a command line says, if it knows all switches and gives all values. Two dashes end the
switches. -/
def arguments? (switches : List Switch) : List Text → Option (List Argument)
  | [] => some []
  | t :: rest =>
    if isValue t then (arguments? switches rest).map (.operand t :: ·)
    else if t = ['-', '-'] then some (rest.map .operand)
    else
      match ofDashed switches t with
      | none => none
      | some (said, none) => (arguments? switches rest).map (said ++ ·)
      | some (said, some long) =>
        match rest with
        | [] => none
        | value :: rest =>
          if isValue value then
            (arguments? switches rest).map (said ++ .setting long value :: ·)
          else none

def operands (line : List Argument) : List Text :=
  line.filterMap fun
    | .operand value => some value
    | _ => none

/-- The value of a switch, which may be given once at most. -/
def setting? (line : List Argument) (long : String) : Option (Option Text) :=
  let values := line.filterMap fun
    | .setting name value => if name = long.toList then some value else none
    | _ => none
  match values with
  | [] => some none
  | [value] => some (some value)
  | _ => none

def flag? (line : List Argument) (long : String) : Option Bool :=
  match line.filter (· = .flag long.toList) with
  | [] => some false
  | [_] => some true
  | _ => none

def pathSetting? (line : List Argument) (long : String) : Option (Option Text) := do
  let value ← setting? line long
  if value = some [] then none else some value

end TemplateSqueeze.Command
