import TemplateSqueeze.Grammar.Arguments

namespace TemplateSqueeze.Grammar.Reader

def initializer (self : Rules) : Reader Unit := do
  if (← looksAt "=") && !(← looksAt "==") && !(← looksAt "=>") then
    symbol "="
    self (.assignment false)

def propertyName (self : Rules) : Reader Unit :=
  name <|> string <|> number <|> do
    if ← looksAt "#" then
      rawSymbol "#"
      name
    else node .other do
      symbol "["
      self .sequence
      symbol "]"

def pattern (self : Rules) (part leaf : Reader Unit) : Reader Unit := do
  let element : Reader Unit := do
    let _ ← symbol? "..."
    part
    initializer self
  if ← looksAt "[" then
    node .other do
      symbol "["
      listed "]" element
  else if ← looksAt "\x7b" then
    node .other do
      symbol "\x7b"
      listed "\x7d" <|
        (do
          propertyName self
          symbol ":"
          element) <|> element
  else leaf

def binding (self : Rules) : Reader Unit := pattern self (self .binding) identifier

def target (self : Rules) : Reader Unit :=
  (do
    ensure ((← looksAt "[") || (← looksAt "\x7b"))
    pattern self (self .target) failure
    ensure !((← looksAt ".") || (← looksAt "["))) <|>
    self .unary

def decorator (self : Rules) : Reader Unit := node .other do
  symbol "@"
  frame do
    if ← looksAt "(" then
      node .other do
        symbol "("
        self .sequence
        symbol ")"
    else
      identifier
      loop do
        if ← looksAt "." then
          symbol "."
          name
          close .other
          return true
        else return false
    optional do
      if (← typed) && (← looksAt "<") then typeArguments self
      arguments self
      close .call

def decorators (self : Rules) : Reader Unit := loop do
  if ← looksAt "@" then
    decorator self
    return true
  else return false

def modifier (words : List String) : Reader Unit := do
  let w ← word
  ensure (words.contains w)
  keyword w
  let t ← rest
  ensure (0 < wordLength t || t.head?.any fun c ↦ c.isDigit || "\"'[#*\x7b".toList.contains c)

def modifiers (words : List String) : Reader Unit := loop (found (modifier words))

def parameter (self : Rules) : Reader Unit := node .other do
  decorators self
  if ← typed then
    modifiers ["public", "private", "protected", "override", "readonly", "accessor"]
  let _ ← symbol? "..."
  keyword "this" <|> binding self
  if ← typed then
    let _ ← symbol? "?"
  annotation self
  initializer self

def parameters (self : Rules) : Reader Unit := node .other do
  symbol "("
  listed ")" (parameter self)

end TemplateSqueeze.Grammar.Reader
