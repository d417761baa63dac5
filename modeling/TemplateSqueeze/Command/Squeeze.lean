import TemplateSqueeze.Command.Host
import TemplateSqueeze.Command.Options
import TemplateSqueeze.Path

namespace TemplateSqueeze.Command

structure SqueezeOptions where
  input : Text
  out : Option Text
  outMap : Option Text
  inMap : Option Text
  language : Option Language
  marker : Text
  deriving DecidableEq, Repr

namespace SqueezeOptions

def switches : List Switch :=
  [⟨"out".toList, some 'o', true⟩, ⟨"out-sourcemap".toList, none, true⟩,
    ⟨"in-sourcemap".toList, none, true⟩, ⟨"language".toList, some 'l', true⟩,
    ⟨"callee".toList, none, true⟩]

def language? (line : List Argument) : Option (Option Language) := do
  match ← setting? line "language" with
  | none => return none
  | some name => return some (← Language.ofName? (String.ofList name))

def ofArguments? (arguments : List Text) : Option SqueezeOptions := do
  let line ← arguments? switches arguments
  let [input] := operands line | none
  if input = [] then failure
  return {
    input
    out := ← pathSetting? line "out"
    outMap := ← pathSetting? line "out-sourcemap"
    inMap := ← pathSetting? line "in-sourcemap"
    language := ← language? line
    marker := (← setting? line "callee").getD Template.defaultMarker }

/-- Where the map goes, if one is wanted: beside the output unless it is told. -/
def mapPath? (o : SqueezeOptions) : Option Text := o.outMap <|> o.out.map (· ++ ".map".toList)

end SqueezeOptions

variable {m : Type → Type} [Monad m]

open Run

/-- Squeezes a file: the map is written before the code, and the code printed unless it has a path
to go to. -/
def squeezeFile (host : Host m) (o : SqueezeOptions) : Run m Unit := do
  let source ← attempt (host.read o.input)
  let some language := o.language <|> Path.language? o.input | throw (.unknownLanguage o.input)
  let tree := parse language source
  let code ← do
    match o.mapPath?, o.inMap with
    | some mapPath, some inMap =>
      let map ← attempt (host.read inMap)
      let r ← ofSqueeze (Source.squeezeCarried o.marker source map tree)
      attempt (host.write mapPath r.map)
      pure r.code
    | some mapPath, none =>
      let some name := Path.fileName? o.input | throw .unnamedInput
      let r ← ofSqueeze (Source.squeezeMapped o.marker source name tree)
      attempt (host.write mapPath r.map)
      pure r.code
    | none, _ => pure (← ofSqueeze (Source.squeeze o.marker source tree)).code
  match o.out with
  | some path => attempt (host.write path code)
  | none => host.print code

def squeezeStatus (host : Host m) (arguments : List Text) : m Nat :=
  match SqueezeOptions.ofArguments? arguments with
  | some o => status host (squeezeFile host o)
  | none => return usageStatus

end TemplateSqueeze.Command
