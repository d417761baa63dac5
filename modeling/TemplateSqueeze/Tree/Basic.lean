import TemplateSqueeze.Text.Chars

namespace TemplateSqueeze

inductive Kind where
  | program
  | block
  | switchCase
  | switchDefault
  | expressionStatement
  /-- Any other statement, also one that stands for nothing but a semicolon. -/
  | statement
  | declaration
  | call
  | identifier
  | arguments
  | template
  | substitution
  | comment
  | token
  | other
  deriving DecidableEq, Repr

namespace Kind

def isNamed : Kind → Bool
  | token => false
  | _ => true

def holdsStatements : Kind → Bool
  | program | block | switchCase | switchDefault => true
  | _ => false

def isStatement : Kind → Bool
  | expressionStatement | statement | declaration => true
  | _ => false

end Kind

/-- A node of a syntax tree. A faulty one holds a part that could not be parsed. -/
structure Node where
  kind : Kind
  start : Nat
  stop : Nat
  faulty : Bool
  children : List Node

namespace Node

mutual

def count : Node → Nat
  | ⟨_, _, _, _, children⟩ => 1 + countAll children

def countAll : List Node → Nat
  | [] => 0
  | n :: ns => n.count + countAll ns

end

theorem count_eq (n : Node) : n.count = 1 + countAll n.children := by
  cases n; rfl

theorem count_pos (n : Node) : 0 < n.count := by
  rw [count_eq]; omega

end Node

end TemplateSqueeze
