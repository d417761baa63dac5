import TemplateSqueeze.Edit.Basic
import TemplateSqueeze.Template.Marker
import TemplateSqueeze.Tree.Walk

namespace TemplateSqueeze

open Template (Segment Literal)

/-- The expression statement whose text begins with the node at `start`, on the way up from it. -/
def statementFrom? (start : Nat) : List Frame → Option Cursor
  | [] => none
  | f :: frames =>
    if f.parent.start ≠ start then none
    else if f.parent.kind = .expressionStatement then some ⟨f.parent, frames⟩
    else statementFrom? start frames

def statementBefore? (statement : Cursor) : Option Node := do
  let list ← statement.parent?
  if list.focus.kind.holdsStatements then
    let n ← statement.before.find? fun n ↦ n.kind.isNamed ∧ n.kind ≠ .comment
    if n.kind.isStatement then some n else none
  else none

/-- Whether the focus begins a statement behind one that no semicolon ends. -/
def needsGuard (source : Text) (c : Cursor) : Bool :=
  match (statementFrom? c.focus.start c.frames).bind statementBefore? with
  | some n => source.charBefore? n.stop ≠ some ';'
  | none => false

def guarded (source : Text) (c : Cursor) (s : Segment) : Segment :=
  if needsGuard source c then .spelled ';' c.focus.start :: s else s

def Edit.ofLiteral (source : Text) (c : Cursor) (l : Literal) : Option Edit := do
  let s := guarded source c (← l.toSegment? source)
  return ⟨c.focus.start, c.focus.stop, s.text, s.origins⟩

/-- One edit for every node that the rule replaces, in the order of the source; `none` when the
tree's ranges do not fit the source. -/
def Edit.ofTree (source : Text) (rule : Node → Option Literal) (root : Node) :
    Option (List Edit) :=
  (walk rule (.atRoot root)).mapM fun (c, l) ↦ Edit.ofLiteral source c l

end TemplateSqueeze
