import TemplateSqueeze.SourceMap.Mappings
import TemplateSqueeze.Json.Basic

namespace TemplateSqueeze.SourceMap

open Json (quoted bracketed member braced)

/-- What a writer starts from: the file known beforehand is listed first. -/
def Writer.start : Option (Text × Text) → Writer
  | none => {}
  | some (name, _) => { sources := ⟨#[name]⟩ }

def Interned.text (t : Interned) : Text := bracketed (t.strings.toList.map quoted)

def contents (count : Nat) : Option (Text × Text) → List Text
  | none => []
  | some (_, content) =>
    [member "sourcesContent"
      (bracketed (quoted content :: List.replicate (count - 1) "null".toList))]

def Writer.map (w : Writer) (known : Option (Text × Text)) (mappings : Text) : Text :=
  braced (member "version" ['3'] :: member "sources" w.sources.text ::
    contents w.sources.strings.size known ++
    [member "names" w.names.text, member "mappings" (quoted mappings)])

/-- Writes tokens in order. `known`, when given, is the one file known beforehand, with its
content. A token that only repeats the one before is left out. -/
def write (known : Option (Text × Text)) (tokens : List Token) : Text :=
  let (mappings, w) := (Writer.start known).tokens tokens.eraseReps
  w.map known mappings

end TemplateSqueeze.SourceMap
