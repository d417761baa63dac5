import TemplateSqueeze.Text.Basic

namespace TemplateSqueeze

/-- Puts `replacement` in place of the bytes `start ..< stop`; `origins` names for every byte of it
the input byte it stands for. -/
structure Edit where
  start : Nat
  stop : Nat
  replacement : Text
  origins : List Nat
  deriving DecidableEq, Repr

inductive EditError where
  | reversed (index start stop : Nat)
  | beyondInput (index stop inputSize : Nat)
  | overlapping (firstStart firstStop secondStart secondStop : Nat)
  | originCount (index count size : Nat)
  | originBeyondInput (index origin inputSize : Nat)
  deriving DecidableEq, Repr

namespace EditError

def message : EditError → String
  | reversed i a b => s!"invalid edit: start > end at index {i}: start={a}, end={b}"
  | beyondInput i b n =>
    s!"invalid edit: edit out of bounds at index {i}: end={b} > input_len={n}"
  | overlapping a b c d => s!"overlapping edits: [{a},{b}) overlaps [{c},{d})"
  | originCount i k n =>
    s!"invalid edit: origin map length mismatch at index {i}: map_len={k}, replacement_len={n}"
  | originBeyondInput i o n =>
    s!"invalid edit: mapped input byte out of bounds at index {i}: in_byte={o} >= input_len={n}"

end EditError

namespace Edit

/-- The first thing wrong with the edit at `index`, which follows `before`. -/
def fault? (inputSize index : Nat) (before : Option Edit) (e : Edit) : Option EditError :=
  if e.stop < e.start then some (.reversed index e.start e.stop)
  else if inputSize < e.stop then some (.beyondInput index e.stop inputSize)
  else
    match before.filter (e.start < ·.stop) with
    | some b => some (.overlapping b.start b.stop e.start e.stop)
    | none =>
      if e.origins.length ≠ e.replacement.size then
        some (.originCount index e.origins.length e.replacement.size)
      else
        (e.origins.find? (inputSize ≤ ·)).map (.originBeyondInput index · inputSize)

def validateFrom (inputSize index : Nat) (before : Option Edit) :
    List Edit → Except EditError Unit
  | [] => .ok ()
  | e :: es =>
    match e.fault? inputSize index before with
    | some fault => .error fault
    | none => validateFrom inputSize (index + 1) (some e) es

theorem validateFrom_cons_eq_ok_iff {size index : Nat} {before : Option Edit} {e : Edit}
    {es : List Edit} : validateFrom size index before (e :: es) = .ok () ↔
      e.fault? size index before = none ∧ validateFrom size (index + 1) (some e) es = .ok () := by
  rw [validateFrom]
  cases e.fault? size index before with
  | some fault => simp
  | none => simp

theorem validateFrom_cons_eq_error_iff {size index : Nat} {before : Option Edit} {e : Edit}
    {es : List Edit} {fault : EditError} :
    validateFrom size index before (e :: es) = .error fault ↔
      e.fault? size index before = some fault ∨ e.fault? size index before = none ∧
        validateFrom size (index + 1) (some e) es = .error fault := by
  rw [validateFrom]
  cases e.fault? size index before with
  | some fault => simp
  | none => simp

def validate (inputSize : Nat) (edits : List Edit) : Except EditError Unit :=
  validateFrom inputSize 0 none edits

def spliceFrom (input : Text) (cursor : Nat) : List Edit → Option Text
  | [] => input.slice? cursor input.size
  | e :: es => do
    let kept ← input.slice? cursor e.start
    let rest ← spliceFrom input e.stop es
    return kept ++ e.replacement ++ rest

theorem spliceFrom_cons_eq_some {input output : Text} {cursor : Nat} {e : Edit} {es : List Edit} :
    spliceFrom input cursor (e :: es) = some output ↔
      ∃ kept rest, input.slice? cursor e.start = some kept ∧
        spliceFrom input e.stop es = some rest ∧ kept ++ e.replacement ++ rest = output := by
  simp only [spliceFrom, Option.bind_eq_bind, Option.bind_eq_some_iff, Option.pure_def,
    Option.some.injEq, exists_and_left]

/-- The input with every edit spliced in; `none` when a piece to keep is no slice of it. -/
def splice (input : Text) (edits : List Edit) : Option Text := spliceFrom input 0 edits

def originsFrom (inputSize cursor : Nat) : List Edit → List Nat
  | [] => List.range' cursor (inputSize - cursor)
  | e :: es =>
    List.range' cursor (e.start - cursor) ++ e.origins ++ originsFrom inputSize e.stop es

/-- For every byte of the spliced text, the input byte it came from. -/
def spliceOrigins (inputSize : Nat) (edits : List Edit) : List Nat := originsFrom inputSize 0 edits

end Edit

end TemplateSqueeze
