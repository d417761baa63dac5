import TemplateSqueeze.Json.Basic
import TemplateSqueeze.Language
import TemplateSqueeze.Template.Marker

namespace TemplateSqueeze

structure Settings where
  language : Language
  marker : Text := Template.defaultMarker
  deriving DecidableEq, Repr

namespace Settings

/-- The marker that an object of options names. No other option has a meaning. -/
def marker? : Json.Value → Option Text
  | .object members =>
    match members.find? (·.1 = "callee".toList) with
    | none | some (_, .null) => some Template.defaultMarker
    | some (_, .string name) => some name
    | some _ => none
  | _ => none

def ofValues? (language options : Json.Value) : Option Settings := do
  let .string name := language | none
  return { language := ← Language.ofName? (String.ofList name), marker := ← marker? options }

end Settings

end TemplateSqueeze
