import TemplateSqueeze.Language
import TemplateSqueeze.Text.Chars
import TemplateSqueeze.Tree.Basic

namespace TemplateSqueeze.Grammar

structure State where
  language : Language
  rest : Text
  offset : Nat
  /-- Where the last token ended, and all the text from there on. -/
  stop : Nat := 0
  gap : Text := []
  newline : Bool := false
  nodes : List Node := []

abbrev Reader := StateT State Option

/-- What can be read at a place, other than by going on within the same rule. -/
inductive Goal where
  | statement
  /-- Statements in braces. An operator `fits` behind one that may end an expression. -/
  | block (fits : Bool)
  | sequence
  /-- An expression without commas. A plain one is no function that declares what it returns. -/
  | assignment (plain : Bool)
  | unary
  | access
  | binding
  | target
  | type
  | unionType
  | element
  deriving DecidableEq, Repr

abbrev Rules := Goal → Reader Unit

namespace State

def typed (s : State) : Bool := s.language != .js

/-- Line ends that can stand for a semicolon; typed sources count the line feed alone. -/
def isBreak (s : State) (c : Char) : Bool :=
  c == '\n' || (!s.typed && (c == '\u2028' || c == '\u2029'))

end State

def blockLength? : Text → Option Nat
  | '*' :: '/' :: _ => some 2
  | _ :: t => (blockLength? t).map (· + 1)
  | [] => none

def commentLength? : Text → Option Nat
  | '/' :: '/' :: t => some (2 + (t.takeWhile (!isLineTerminator ·)).length)
  | '/' :: '*' :: t => (blockLength? t).map (2 + ·)
  | _ => none

theorem commentLength?_pos {t : Text} {n : Nat} (h : commentLength? t = some n) : 0 < n := by
  unfold commentLength? at h
  split at h
  · cases h; omega
  · obtain ⟨k, _, hk⟩ := Option.map_eq_some_iff.1 h
    omega
  · cases h

namespace State

def advance (s : State) (n : Nat) : State :=
  { s with rest := s.rest.drop n, offset := s.offset + Text.size (s.rest.take n) }

def leaf (s : State) (kind : Kind) (n : Nat) : Node :=
  ⟨kind, s.offset, (s.advance n).offset, false, []⟩

def skipTrivia (s : State) : State :=
  match _h : s.rest with
  | [] => s
  | c :: _ =>
    if isBlank c then
      skipTrivia { s.advance 1 with newline := s.newline || s.isBreak c }
    else
      match _hc : commentLength? s.rest with
      | none => s
      | some n =>
        let broken := (s.rest.take n).any s.isBreak
        skipTrivia
          { s.advance n with
            newline := s.newline || broken
            nodes := s.leaf .comment n :: s.nodes }
termination_by s.rest.length
decreasing_by
  · simp [advance, _h]
  · have := commentLength?_pos _hc
    simp only [advance, _h, List.length_drop, List.length_cons]
    omega

end State

namespace Reader

def skipTrivia : Reader Unit := modify State.skipTrivia

def markupLength? (t : Text) : Option Nat :=
  if "<!--".toList.isPrefixOf t || "-->".toList.isPrefixOf t then
    some (t.takeWhile fun c ↦ !(c == '\n' || c == '\u2028' || c == '\u2029')).length
  else none

/-- Runs a step until it says no; each run but the last has to read something. -/
def repeatN (step : Reader Bool) : Nat → Reader Unit
  | 0 => failure
  | n + 1 => do if ← step then repeatN step n

def loop (step : Reader Bool) : Reader Unit := do
  repeatN step ((← get).rest.length + 1)

def skipMarkup : Reader Unit := loop do
  let s ← get
  match markupLength? s.rest with
  | none => return false
  | some n =>
    set { s.advance n with nodes := s.leaf .other n :: s.nodes }
    skipTrivia
    return true

def rawToken (kind : Kind) (n : Nat) : Reader Unit := modify fun s ↦
  let next := s.advance n
  { next with
    stop := next.offset
    gap := next.rest
    newline := false
    nodes := s.leaf kind n :: s.nodes }

def token (kind : Kind) (n : Nat) : Reader Unit := do
  rawToken kind n
  skipTrivia

def rest : Reader Text := return (← get).rest

def next? : Reader (Option Char) := return (← get).rest.head?

def atEnd : Reader Bool := return (← get).rest.isEmpty

def looksAt (symbol : String) : Reader Bool := return symbol.toList.isPrefixOf (← get).rest

def ensure (b : Bool) : Reader Unit := if b then return else failure

def rawSymbol (symbol : String) : Reader Unit := do
  ensure (← looksAt symbol)
  rawToken .token symbol.length

def symbol (symbol : String) : Reader Unit := do
  rawSymbol symbol
  skipTrivia

def symbol? (s : String) : Reader Bool := do
  if ← looksAt s then symbol s; return true else return false

def optional (r : Reader Unit) : Reader Unit := r <|> pure ()

def found (r : Reader Unit) : Reader Bool := (do r; return true) <|> pure false

def would (r : Reader Unit) : Reader Bool := do
  let s ← get
  let b ← found r
  set s
  return b

def fault : Reader Unit := modify fun s ↦
  let outside := s.nodes.takeWhile fun n ↦ s.stop ≤ n.start && !n.faulty
  { s with nodes := outside ++ ⟨.other, s.stop, s.stop, true, []⟩ :: s.nodes.drop outside.length }

/-- Makes one node of the frame, from its first node to the last token. What was skipped behind
the last token stays outside. -/
def close (kind : Kind) : Reader Unit := modify fun s ↦
  let outside := s.nodes.takeWhile fun n ↦ s.stop ≤ n.start && !n.faulty
  let children := (s.nodes.drop outside.length).reverse
  let start := (children.head?.map Node.start).getD s.stop
  { s with nodes := outside ++ [⟨kind, start, s.stop, children.any (·.faulty), children⟩] }

/-- Reads within a frame of its own, whose nodes then go to the frame around it. -/
def frame (r : Reader Unit) : Reader Unit := do
  let outer := (← get).nodes
  modify ({ · with nodes := [] })
  r
  modify fun s ↦ { s with nodes := s.nodes ++ outer }

def node (kind : Kind) (r : Reader Unit) : Reader Unit := frame do
  r
  close kind

def afterNewline : Reader Bool := return (← get).newline

def typed : Reader Bool := return (← get).typed

end Reader

end TemplateSqueeze.Grammar
