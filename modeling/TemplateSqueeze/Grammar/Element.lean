import TemplateSqueeze.Grammar.Arguments

namespace TemplateSqueeze.Grammar.Reader

def markupNameLength (t : Text) : Nat :=
  (t.takeWhile fun c ↦ isWordChar c || c == '-' || c == ':' || c == '.').length

def markupName : Reader Unit := do
  let n := markupNameLength (← rest)
  ensure (0 < n)
  token .other n

/-- Reads an expression in braces, or braces around nothing. Blanks behind it are text. -/
def contained (self : Rules) : Reader Unit := node .other do
  symbol "\x7b"
  if ← looksAt "..." then spreadable self
  else unless ← looksAt "\x7d" do self .sequence
  rawSymbol "\x7d"

def quotedValue : Reader Unit := do
  let t ← rest
  match t with
  | quote :: r =>
    ensure (quote == '"' || quote == '\'')
    let n := (r.takeWhile (· != quote)).length
    ensure (n < r.length)
    rawToken .other (n + 2)
  | [] => failure

def setting (self : Rules) : Reader Unit := do
  if ← looksAt "\x7b" then contained self
  else
    markupName
    if ← symbol? "=" then quotedValue <|> contained self <|> self .element
  skipTrivia

def looksAtClosing : Reader Bool := would do
  symbol "<"
  symbol "/"

def children (self : Rules) : Reader Unit := loop do
  let n := ((← rest).takeWhile fun c ↦ c != '<' && c != '\x7b').length
  if 0 < n then
    pass n
    return true
  else if ← looksAt "\x7b" then
    contained self
    return true
  else if ← looksAtClosing then return false
  else
    self .element
    return true

def element (self : Rules) : Reader Unit := node .other do
  symbol "<"
  let whole ← do
    if ← looksAt ">" then
      rawSymbol ">"
      pure false
    else
      markupName
      if ← looksAt "<" then typeArguments self
      loop (found (setting self))
      if ← looksAt "/>" then
        rawSymbol "/>"
        pure true
      else
        rawSymbol ">"
        pure false
  unless whole do
    children self
    symbol "<"
    symbol "/"
    optional markupName
    rawSymbol ">"

end TemplateSqueeze.Grammar.Reader
