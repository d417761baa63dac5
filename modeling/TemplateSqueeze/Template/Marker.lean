import TemplateSqueeze.Template.Literal

namespace TemplateSqueeze.Template

def defaultMarker : Text := "TrimMultispaces".toList

def callee? (call : Node) : Option Node :=
  (call.children.filter (·.kind.isNamed)).head?

/-- The arguments of a call: its last named child, which for a tagged template is the template. -/
def arguments? (call : Node) : Option Node :=
  (call.children.filter (·.kind.isNamed)).getLast?

/-- The template argument of a marker call. Calls that hold a fault are left alone. -/
def markedTemplate? (marker source : Text) (n : Node) : Option Node := do
  if n.kind ≠ .call ∨ n.faulty then failure
  let callee ← callee? n
  if callee.kind ≠ .identifier ∨ source.slice? callee.start callee.stop ≠ some marker then failure
  let arguments ← arguments? n
  if arguments.kind ≠ .arguments then failure
  match arguments.children.filter fun c ↦ c.kind.isNamed ∧ c.kind ≠ .comment with
  | [argument] => if argument.kind = .template then some argument else none
  | _ => none

def replacement? (marker source : Text) (n : Node) : Option Literal :=
  (markedTemplate? marker source n).bind (Literal.ofNode? source)

end TemplateSqueeze.Template
