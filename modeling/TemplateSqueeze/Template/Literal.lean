import TemplateSqueeze.Template.Squeeze
import TemplateSqueeze.Tree.Basic

namespace TemplateSqueeze.Template

inductive SegmentPlace where
  | inner
  | last
  deriving DecidableEq, Repr

def SegmentPlace.ofIndex (index count : Nat) : SegmentPlace :=
  if index + 1 = count then .last else .inner

structure Span where
  substitution : Node
  segment : Segment
  place : SegmentPlace

/-- The expression of a substitution: its first named child that is no comment. -/
def Span.expression? (s : Span) : Option Node :=
  s.substitution.children.find? fun n ↦ n.kind.isNamed ∧ n.kind ≠ .comment

structure Literal where
  openAt : Nat
  closeAt : Nat
  head : Segment
  spans : List Span

def mark : Char := '\x60'

def spansOf (source : Text) (closeAt index count : Nat) : List Node → Option (List Span)
  | [] => some []
  | n :: ns => do
    let stop := (ns.head?.map Node.start).getD closeAt
    let raw ← source.slice? n.stop stop
    let rest ← spansOf source closeAt (index + 1) count ns
    return ⟨n, squeeze raw n.stop, .ofIndex index count⟩ :: rest

namespace Literal

def ofNode? (source : Text) (template : Node) : Option Literal := do
  let openAt := template.start
  let closeAt := template.stop - 1
  if openAt < closeAt ∧ source.charAt? openAt = some mark ∧ source.charAt? closeAt = some mark then
    let substitutions := template.children.filter (·.kind = .substitution)
    let stop := (substitutions.head?.map Node.start).getD closeAt
    let raw ← source.slice? (openAt + 1) stop
    let spans ← spansOf source closeAt 0 substitutions.length substitutions
    return ⟨openAt, closeAt, squeeze raw (openAt + 1), spans⟩
  else none

def segmentOfSpans (source : Text) : List Span → Option Segment
  | [] => some []
  | s :: spans => do
    let substitution ← source.slice? s.substitution.start s.substitution.stop
    let rest ← segmentOfSpans source spans
    return .copy s.substitution.start substitution ++ s.segment ++ rest

def toSegment? (l : Literal) (source : Text) : Option Segment := do
  let spans ← segmentOfSpans source l.spans
  return .kept mark l.openAt :: l.head ++ spans ++ [.kept mark l.closeAt]

end Literal

end TemplateSqueeze.Template
