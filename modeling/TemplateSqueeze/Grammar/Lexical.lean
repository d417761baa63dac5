import TemplateSqueeze.Grammar.Reader

namespace TemplateSqueeze.Grammar

def unicodeEscape? : Text → Option Nat
  | '\\' :: 'u' :: '\x7b' :: t =>
    let n := (t.takeWhile isHexDigit).length
    if 0 < n ∧ (t.drop n).head? = some '\x7d' then some (n + 4) else none
  | '\\' :: 'u' :: t => if ((t.take 4).filter isHexDigit).length = 4 then some 6 else none
  | _ => none

theorem unicodeEscape?_pos {t : Text} {n : Nat} (h : unicodeEscape? t = some n) : 0 < n := by
  unfold unicodeEscape? at h
  split at h <;> grind

/-- The length of an escape in a string or a template, if there is one that means something. -/
def escape? : Text → Option Nat
  | '\\' :: 'u' :: t => unicodeEscape? ('\\' :: 'u' :: t)
  | '\\' :: 'x' :: t => if ((t.take 2).filter isHexDigit).length = 2 then some 4 else none
  | '\\' :: '\r' :: '\n' :: _ => some 3
  | '\\' :: _ :: _ => some 2
  | _ => none

def wordRest (t : Text) : Nat :=
  match t with
  | [] => 0
  | c :: r =>
    if isWordChar c then 1 + wordRest r
    else
      match _h : unicodeEscape? (c :: r) with
      | some n => n + wordRest ((c :: r).drop n)
      | none => 0
termination_by t.length
decreasing_by
  · simp
  · have := unicodeEscape?_pos _h
    simp only [List.length_drop, List.length_cons]
    omega

def wordLength (t : Text) : Nat := if t.head?.any Char.isDigit then 0 else wordRest t

def digits (digit : Char → Bool) (t : Text) : Nat :=
  (t.takeWhile fun c ↦ digit c || c == '_').length

def exponent : Text → Nat
  | c :: t =>
    let sign := if t.head? = some '+' ∨ t.head? = some '-' then 1 else 0
    let n := digits Char.isDigit (t.drop sign)
    if (c = 'e' ∨ c = 'E') ∧ 0 < n then 1 + sign + n else 0
  | [] => 0

def fraction : Text → Nat
  | '.' :: t => 1 + digits Char.isDigit t
  | _ => 0

def numberLength? (t : Text) : Option Nat :=
  let whole := digits Char.isDigit t
  let point := whole + fraction (t.drop whole)
  let decimal := point + exponent (t.drop point)
  let length :=
    match t with
    | '0' :: c :: r =>
      if c = 'x' ∨ c = 'X' then 2 + digits isHexDigit r
      else if c = 'o' ∨ c = 'O' ∨ c = 'b' ∨ c = 'B' then 2 + digits Char.isDigit r
      else decimal
    | _ => decimal
  let begins :=
    t.head?.any Char.isDigit || (t.head? = some '.' && (t.drop 1).head?.any Char.isDigit)
  if begins then some (if (t.drop length).head? = some 'n' then length + 1 else length) else none

/-- The length of a regular expression's text up to its end, with the slash. Slashes inside a
class of characters do not end it. -/
def regexRest? (inClass : Bool) : Text → Option Nat
  | [] => none
  | '\\' :: c :: t => if c = '\n' then none else (regexRest? inClass t).map (· + 2)
  | c :: t =>
    if c = '\n' then none
    else if c = '/' ∧ !inClass then some 1
    else (regexRest? (if inClass then c != ']' else c == '[') t).map (· + 1)

def regexLength? : Text → Option Nat
  | '/' :: t => do
    let n ← regexRest? false t
    if n = 1 then none else some (1 + n + ((t.drop n).takeWhile Char.isLower).length)
  | _ => none

def stringRest? (quote : Char) (t : Text) : Option (Nat × Bool) :=
  match t with
  | [] => none
  | c :: r =>
    if c = quote then some (1, true)
    else if c = '\n' ∨ c = '\r' then none
    else if c = '\\' then
      let n := (escape? (c :: r)).getD 1
      (stringRest? quote (r.drop (n - 1))).map fun (k, sound) ↦
        (n + k, sound && (escape? (c :: r)).isSome)
    else (stringRest? quote r).map fun (k, sound) ↦ (k + 1, sound)
termination_by t.length
decreasing_by all_goals simp only [List.length_drop, List.length_cons]; omega

def reserved : List String :=
  ["break", "case", "catch", "class", "const", "continue", "debugger", "default", "delete", "do",
    "else", "export", "extends", "false", "finally", "for", "function", "if", "import", "in",
    "instanceof", "new", "null", "return", "super", "switch", "this", "throw", "true", "try",
    "typeof", "var", "void", "while", "with", "await", "yield"]

namespace Reader

def word : Reader String := do
  let t ← rest
  return String.ofList (t.take (wordLength t))

def looksAtWord (w : String) : Reader Bool := return (← word) == w

def name : Reader Unit := do
  let n := (← word).length
  ensure (0 < n)
  token .other n

def keyword (w : String) : Reader Unit := do
  ensure (← looksAtWord w)
  token .token w.length

def keyword? (w : String) : Reader Bool := found (keyword w)

def identifier : Reader Unit := do
  let w ← word
  ensure (w != "" && !reserved.contains w)
  token (if w == "undefined" then .other else .identifier) w.length

def number : Reader Unit := do
  match numberLength? (← rest) with
  | some n => token .other n
  | none => failure

def regex : Reader Unit := do
  match regexLength? (← rest) with
  | some n => token .other n
  | none => failure

def string : Reader Unit := do
  let t ← rest
  match t.head? with
  | some quote =>
    ensure (quote == '"' || quote == '\'')
    match stringRest? quote (t.drop 1) with
    | some (n, sound) =>
      rawToken .other (n + 1)
      unless sound do fault
      skipTrivia
    | none => failure
  | none => failure

def pass (n : Nat) : Reader Unit := modify (·.advance n)

def template (inside : Reader Unit) : Reader Unit := do
  node .template do
    rawSymbol "\x60"
    loop do
      let t ← rest
      match t.head? with
      | none => failure
      | some c =>
        if c == '\x60' then return false
        else if "$\x7b".toList.isPrefixOf t then
          node .substitution do
            symbol "$\x7b"
            inside
            rawSymbol "\x7d"
          return true
        else if c == '\\' then
          if (escape? t).isNone then fault
          pass ((escape? t).getD 1)
          return true
        else
          pass (max 1 (t.takeWhile fun c ↦ c != '\x60' && c != '$' && c != '\\').length)
          return true
    rawSymbol "\x60"
  skipTrivia

end Reader

end TemplateSqueeze.Grammar
