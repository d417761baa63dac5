import TemplateSqueeze.Edit.Basic

namespace TemplateSqueeze

/-- Enters output bytes one after the other; the first to claim an input byte keeps it. -/
def settle (slots : Array (Option Nat)) (offset : Nat) : List Nat → Array (Option Nat)
  | [] => slots
  | x :: origins =>
    settle (slots.modify x fun slot ↦ some (slot.getD offset)) (offset + 1) origins

def destinations (inputSize : Nat) (origins : List Nat) : Array (Option Nat) :=
  settle (Array.replicate inputSize none) 0 origins

def jointsFrom (startsLine : Nat → Bool) (offset : Nat) (before : Option Nat) :
    List Nat → List Nat
  | [] => []
  | x :: origins =>
    let rest := jointsFrom startsLine (offset + 1) (some x) origins
    if before.map (· + 1) = some x ∧ !startsLine offset then rest else offset :: rest

/-- The output bytes that need a mapping of their own: the first one, those that start a line, and
those that do not follow their neighbour's origin. -/
def joints (startsLine : Nat → Bool) (origins : List Nat) : List Nat :=
  jointsFrom startsLine 0 none origins

end TemplateSqueeze
