import TemplateSqueeze.Grammar.Reader

namespace TemplateSqueeze.Grammar

structure Beyond where
  rest : Text
  inline : Bool := false

def afterBlock : Text → Bool × Text
  | [] => (false, [])
  | '*' :: '/' :: t => (false, t)
  | c :: t =>
    let (broken, rest) := afterBlock t
    (broken || c == '\n' || c == '\u2028' || c == '\u2029', rest)

theorem length_afterBlock_le (t : Text) : (afterBlock t).2.length ≤ t.length := by
  fun_induction afterBlock t <;> simp_all <;> omega

def afterLine (t : Text) : Text :=
  t.dropWhile fun c ↦ !(c == '\n' || c == '\u2028' || c == '\u2029')

theorem length_dropWhile_le (p : Char → Bool) (t : Text) : (t.dropWhile p).length ≤ t.length :=
  (List.dropWhile_sublist p).length_le

theorem length_afterLine_le (t : Text) : (afterLine t).length ≤ t.length := length_dropWhile_le _ t

/-- Looks past blanks and comments; without `through`, past one block comment at most. A slash that
begins no comment bars the way. -/
def lookPast (through : Bool) (t : Text) : Option Beyond :=
  match _h : t.dropWhile isAsciiBlank with
  | '/' :: '/' :: r => lookPast through (afterLine r)
  | '/' :: '*' :: r =>
    let rest := (afterBlock r).2
    if through || rest.head? == some '/' then lookPast through rest
    else some ⟨rest, !(afterBlock r).1⟩
  | '/' :: _ => none
  | r => some ⟨r, false⟩
termination_by t.length
decreasing_by
  · have := length_dropWhile_le isAsciiBlank t
    have := length_afterLine_le r
    simp only [_h, List.length_cons] at *
    omega
  · have := length_dropWhile_le isAsciiBlank t
    have := length_afterBlock_le r
    simp only [_h, List.length_cons] at *
    omega

theorem length_rest_lookPast_le {through : Bool} {t : Text} {b : Beyond}
    (h : lookPast through t = some b) : b.rest.length ≤ t.length := by
  fun_induction lookPast through t with
  | case1 t r hr ih =>
    have hd := length_dropWhile_le isAsciiBlank t
    have := length_afterLine_le r
    have := ih h
    simp only [hr, List.length_cons] at hd
    omega
  | case2 t r hr rest hb ih =>
    have hd := length_dropWhile_le isAsciiBlank t
    have : rest.length ≤ r.length := length_afterBlock_le r
    have := ih h
    simp only [hr, List.length_cons] at hd
    omega
  | case3 t r hr rest hb =>
    have hd := length_dropWhile_le isAsciiBlank t
    have : rest.length ≤ r.length := length_afterBlock_le r
    simp only [hr, List.length_cons] at hd
    cases h
    exact (by omega : rest.length ≤ t.length)
  | case4 => cases h
  | case5 t r =>
    cases h
    exact length_dropWhile_le isAsciiBlank t

/-- Whether a line that begins with this text goes on with the statement before it. An operator
`fits` where an expression is complete. -/
def continues (typed fits : Bool) : Text → Bool
  | '.' :: t => !t.head?.any Char.isDigit
  | '+' :: t => t.head? != some '+'
  | '-' :: t => t.head? != some '-'
  | '!' :: t => t.head? == some '='
  | '(' :: _ | '[' :: _ => fits || !typed
  | 'i' :: 'n' :: t =>
    let operator := if "stanceof".toList.isPrefixOf t then t.drop 8 else t
    !operator.head?.any fun c ↦ c.isAlpha || 128 ≤ c.toNat
  | c :: _ => "\x60,:;*%><=?^|&/".toList.contains c
  | [] => false

def endsBeforeLine (typed fits : Bool) (t : Text) : Bool :=
  (lookPast true t).any (!continues typed fits ·.rest)

/-- Whether a statement may end right before a text without a semicolon. Sources with types see
a closing brace before a colon as the end of a pattern, and do not look past comments. -/
def endsBefore (typed fits : Bool) (t : Text) : Bool :=
  match t with
  | [] => true
  | c :: r =>
    if c = '\x7d' then !typed || fits || (r.dropWhile isAsciiBlank).head? != some ':'
    else if c = '\n' ∨ !typed ∧ (c = '\u2028' ∨ c = '\u2029') then endsBeforeLine typed fits r
    else if isAsciiBlank c then endsBefore typed fits r
    else if typed ∨ c ≠ '/' then false
    else
      match _h : lookPast false (c :: r) with
      | none => false
      | some ⟨[], inline⟩ => !fits && !inline
      | some ⟨d :: q, inline⟩ =>
        !fits && !inline && d != ',' && d != '=' || d == '\x7d' ||
          if d = '\n' ∨ d = '\u2028' ∨ d = '\u2029' then endsBeforeLine typed fits q
          else isAsciiBlank d && endsBefore typed fits q
termination_by t.length
decreasing_by
  · simp
  · have h := length_rest_lookPast_le _h
    simp only [List.length_cons] at h ⊢
    omega

namespace Reader

/-- Ends a statement where no semicolon stands: right behind the last token, or else behind the
first comment after it that allows it, which then belongs to the statement. -/
def implicitEnd (fits : Bool) : Reader Unit := do
  let s ← get
  let comments := (s.nodes.takeWhile fun n ↦ s.stop ≤ n.start && !n.faulty).reverse
  let ends (offset : Nat) : Bool :=
    (s.gap.drop? (offset - s.stop)).any (endsBefore s.typed fits)
  match (s.stop :: comments.map Node.stop).find? ends with
  | some offset =>
    set { s with stop := offset, gap := (s.gap.drop? (offset - s.stop)).getD [] }
  | none => failure

def semicolon (fits : Bool) : Reader Unit := implicitEnd fits <|> symbol ";"

end Reader

end TemplateSqueeze.Grammar
