import TemplateSqueeze.Edit.Guard
import TemplateSqueeze.Grammar.Program
import TemplateSqueeze.SourceMap.Carry

namespace TemplateSqueeze

inductive SqueezeError where
  /-- The tree's ranges do not fit the source. -/
  | tree
  | edit (error : EditError)
  | map (error : SourceMap.MapError)
  deriving DecidableEq, Repr

structure Squeezed where
  code : Text
  edits : List Edit
  deriving DecidableEq, Repr

structure Mapped where
  code : Text
  map : Text
  deriving DecidableEq, Repr

namespace Source

def markerEdits (marker source : Text) (tree : Node) : Option (List Edit) :=
  Edit.ofTree source (Template.replacement? marker source) tree

def squeeze (marker source : Text) (tree : Node) : Except SqueezeError Squeezed := do
  let some edits := markerEdits marker source tree | throw .tree
  (Edit.validate source.size edits).mapError .edit
  let some code := Edit.splice source edits | throw .tree
  return ⟨code, edits⟩

def squeezeMapped (marker source fileName : Text) (tree : Node) : Except SqueezeError Mapped := do
  let s ← squeeze marker source tree
  return ⟨s.code, SourceMap.create source s.code fileName s.edits⟩

def squeezeCarried (marker source map : Text) (tree : Node) : Except SqueezeError Mapped := do
  let s ← squeeze marker source tree
  return ⟨s.code, ← (SourceMap.carry source s.code map s.edits).mapError .map⟩

end Source

end TemplateSqueeze
