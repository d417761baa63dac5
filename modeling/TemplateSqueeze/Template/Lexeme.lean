import TemplateSqueeze.Text.Chars

namespace TemplateSqueeze.Template

inductive LexemeKind where
  | space
  /-- A backslash before a line terminator, which cooks to nothing. -/
  | continuation
  | other
  deriving DecidableEq, Repr

/-- A unit of raw text, never empty. -/
structure Lexeme where
  kind : LexemeKind
  text : Text
  deriving DecidableEq, Repr

def namesSpace (digits : Text) : Bool :=
  digits.all isHexDigit && digits.dropWhile (· == '0') == ['2', '0']

/-- The body of a braced escape, up to the first closing brace, if it names U+0020. -/
def bracedSpace? : Text → Option Text
  | 'u' :: '\x7b' :: t =>
    let digits := t.takeWhile (· != '\x7d')
    match t.drop digits.length with
    | [] => none
    | _ :: _ => if namesSpace digits then some ('u' :: '\x7b' :: digits ++ ['\x7d']) else none
  | _ => none

def escapeBody (t : Text) : LexemeKind × Text :=
  match bracedSpace? t, t with
  | some body, _ => (.space, body)
  | none, ' ' :: _ => (.space, [' '])
  | none, 'x' :: '2' :: '0' :: _ => (.space, ['x', '2', '0'])
  | none, 'u' :: '0' :: '0' :: '2' :: '0' :: _ => (.space, ['u', '0', '0', '2', '0'])
  | none, '\r' :: '\n' :: _ => (.continuation, ['\r', '\n'])
  | none, c :: _ => (if isLineTerminator c then .continuation else .other, [c])
  | none, [] => (.other, [])

def Lexeme.first (c : Char) (t : Text) : Lexeme :=
  if c = ' ' then ⟨.space, [c]⟩
  else if c = '\\' then
    let (kind, body) := escapeBody t
    ⟨kind, c :: body⟩
  else ⟨.other, [c]⟩

theorem Lexeme.length_first_pos (c : Char) (t : Text) : 0 < (Lexeme.first c t).text.length := by
  unfold Lexeme.first
  split
  · simp
  · split <;> simp

theorem Lexeme.length_drop_first_lt (c : Char) (t : Text) :
    ((c :: t).drop (Lexeme.first c t).text.length).length < (c :: t).length := by
  have := Lexeme.length_first_pos c t
  simp only [List.length_drop, List.length_cons]
  omega

def lexemes : Text → List Lexeme
  | [] => []
  | c :: t =>
    let l := Lexeme.first c t
    l :: lexemes ((c :: t).drop l.text.length)
termination_by t => t.length
decreasing_by exact Lexeme.length_drop_first_lt c t

end TemplateSqueeze.Template
