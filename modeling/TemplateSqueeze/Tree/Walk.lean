import TemplateSqueeze.Tree.Cursor

namespace TemplateSqueeze

variable {α : Type}

def walk (rule : Node → Option α) (c : Cursor) : List (Cursor × α) :=
  match rule c.focus with
  | some answer =>
    match _h : c.following? with
    | some next => (c, answer) :: walk rule next
    | none => [(c, answer)]
  | none =>
    match _h : c.firstChild? with
    | some child => walk rule child
    | none =>
      match _h' : c.following? with
      | some next => walk rule next
      | none => []
termination_by c.pending
decreasing_by
  · exact Cursor.pending_following? _h
  · exact Cursor.pending_firstChild? _h
  · exact Cursor.pending_following? _h'

mutual

/-- The nodes that a rule answers, but for those below another such node. -/
def outermost (rule : Node → Option α) : Node → List (Node × α)
  | ⟨kind, start, stop, faulty, children⟩ =>
    match rule ⟨kind, start, stop, faulty, children⟩ with
    | some answer => [(⟨kind, start, stop, faulty, children⟩, answer)]
    | none => outermostAll rule children

def outermostAll (rule : Node → Option α) : List Node → List (Node × α)
  | [] => []
  | n :: ns => outermost rule n ++ outermostAll rule ns

end

end TemplateSqueeze
