import TemplateSqueeze.Template.Lexeme
import TemplateSqueeze.Template.Segment

namespace TemplateSqueeze.Template

/-- How a unit has to be written when a deleted run lets `next` follow it directly: a dollar would
open a substitution, and a null escape would read as an octal one. -/
def respelling? (unit : Text) (next : Option Char) : Option Text :=
  match unit, next with
  | ['$'], some '\x7b' => some ['\\', '$']
  | ['\\', '0'], some c => if c.isDigit then some ['\\', 'x', '0', '0'] else none
  | _, _ => none

/-- What a scan over spaces and continuations found: how many spaces, and the text behind the last
of them with its offset. -/
structure Run where
  spaces : Nat
  rest : Text
  offset : Nat

def Run.extend (run : Run) (offset : Nat) : Text → Run
  | [] => run
  | c :: t =>
    let l := Lexeme.first c t
    let rest := (c :: t).drop l.text.length
    let next := offset + l.text.size
    match l.kind with
    | .space => Run.extend ⟨run.spaces + 1, rest, next⟩ next rest
    | .continuation => Run.extend run next rest
    | .other => run
termination_by t => t.length
decreasing_by all_goals exact Lexeme.length_drop_first_lt c t

theorem Run.length_rest_extend (run : Run) (offset : Nat) (t : Text)
    (h : t.length ≤ run.rest.length) : (run.extend offset t).rest.length ≤ run.rest.length := by
  fun_induction Run.extend run offset t with
  | case1 => exact Nat.le_refl _
  | case2 run offset c t l rest next hl ih =>
    have hr : rest.length ≤ run.rest.length :=
      Nat.le_trans (by simp only [rest, List.length_drop]; omega) h
    exact Nat.le_trans (ih (Nat.le_refl _)) hr
  | case3 run offset c t l rest next hl ih =>
    exact ih (Nat.le_trans (by simp only [rest, List.length_drop]; omega) h)
  | case4 => exact Nat.le_refl _

/-- A unit kept back until it is known whether a run goes behind it. -/
structure Held where
  text : Text
  offset : Nat

def Held.write : Option Held → Segment
  | none => []
  | some u => .copy u.offset u.text

def Held.writeBefore (next : Option Char) : Option Held → Segment
  | none => []
  | some u =>
    match respelling? u.text next with
    | some t => .spell u.offset t
    | none => .copy u.offset u.text

/-- Squeezes the text at `offset`, with the unit before it held back. Nothing is held after a
space: only a unit that a run follows at once is ever spelled another way. -/
def squeezeFrom (held : Option Held) (offset : Nat) : Text → Segment
  | [] => Held.write held
  | c :: t =>
    let l := Lexeme.first c t
    let rest := (c :: t).drop l.text.length
    let next := offset + l.text.size
    if l.kind = .space then
      let run := Run.extend ⟨1, rest, next⟩ next rest
      have : run.rest.length ≤ rest.length := Run.length_rest_extend _ _ _ (Nat.le_refl _)
      if 2 ≤ run.spaces then
        Held.writeBefore run.rest.head? held ++ squeezeFrom none run.offset run.rest
      else
        Held.write held ++ .copy offset l.text ++ squeezeFrom none next rest
    else
      Held.write held ++ squeezeFrom (some ⟨l.text, offset⟩) next rest
termination_by t => t.length
decreasing_by
  · exact Nat.lt_of_le_of_lt this (Lexeme.length_drop_first_lt c t)
  all_goals exact Lexeme.length_drop_first_lt c t

def squeeze (raw : Text) (origin : Nat) : Segment := squeezeFrom none origin raw

/-- A maximal row of spaces and continuations, without what lies between its first space and its
last one if it holds two. -/
def thinned (row : List Lexeme) : List Lexeme :=
  if 2 ≤ row.countP (·.kind = .space) then
    (row.reverse.takeWhile (·.kind ≠ .space)).reverse
  else row

def behindRun? (units : List Lexeme) : Option Char :=
  match units with
  | [] => none
  | u :: _ =>
    let row := units.takeWhile (·.kind ≠ .other)
    if u.kind = .space ∧ 2 ≤ row.countP (·.kind = .space) then
      ((thinned row ++ units.drop row.length).flatMap Lexeme.text).head?
    else none

def Lexeme.respelled (u : Lexeme) (next : Option Char) : Text :=
  (respelling? u.text next).getD u.text

/-- The squeezed text, said over the whole list of units. -/
def squeezeUnits : List Lexeme → Text
  | [] => []
  | u :: units =>
    if u.kind = .space then
      let row := units.takeWhile (·.kind ≠ .other)
      (thinned (u :: row)).flatMap Lexeme.text ++ squeezeUnits (units.drop row.length)
    else u.respelled (behindRun? units) ++ squeezeUnits units
termination_by units => units.length

end TemplateSqueeze.Template
