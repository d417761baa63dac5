import TemplateSqueeze.Grammar.Pattern

namespace TemplateSqueeze.Grammar.Reader

def typeParameter (self : Rules) : Reader Unit := do
  modifiers ["const", "in", "out"]
  identifier
  if ← keyword? "extends" then self .type
  if ← symbol? "=" then self .type

def typeParameters (self : Rules) : Reader Unit := node .other do
  symbol "<"
  listed ">" (typeParameter self)

def signature (self : Rules) : Reader Unit := do
  if (← typed) && (← looksAt "<") then typeParameters self
  parameters self
  annotation self

def dotted : Reader Unit := do
  name
  loop do
    if ← looksAt "." then
      symbol "."
      name
      return true
    else return false

def typeMember (self : Rules) : Reader Unit := node .other do
  if (← looksAt "+") || (← looksAt "-") then token .token 1
  modifiers ["readonly", "get", "set", "static", "new", "abstract"]
  let _ ← keyword? "new"
  let mapped : Reader Unit := do
    symbol "["
    name
    symbol ":" <|> keyword "in"
    self .type
    if ← keyword? "as" then self .type
    symbol "]"
  mapped <|> propertyName self <|> pure ()
  if (← looksAt "+") || (← looksAt "-") then token .token 1
  let _ ← symbol? "?"
  if (← looksAt "(") || (← looksAt "<") then signature self else annotation self

def objectType (self : Rules) : Reader Unit := node .other do
  symbol "\x7b"
  loop do
    if ← looksAt "\x7d" then return false
    unless (← symbol? ",") || (← symbol? ";") do
      let before := (← rest).length
      typeMember self
      ensure ((← rest).length < before)
    return true
  symbol "\x7d"

def tupleElement (self : Rules) : Reader Unit := do
  let _ ← symbol? "..."
  optional do
    name
    let _ ← symbol? "?"
    symbol ":"
  self .type
  let _ ← symbol? "?"

def typeWords : List String := ["this", "void", "null", "true", "false"]

def simpleType (self : Rules) : Reader Unit := do
  match ← next? with
  | some '(' =>
    node .other do
      symbol "("
      self .type
      symbol ")"
  | some '[' =>
    node .other do
      symbol "["
      listed "]" (tupleElement self)
  | some '\x7b' => objectType self
  | some '\x60' => template (self .type)
  | some '-' =>
    node .other do
      symbol "-"
      number
  | _ =>
    string <|> number <|> node .other do
      if ← looksAtWord "import" then
        keyword "import"
        arguments self
        if ← symbol? "." then dotted
      else
        let w ← word
        ensure (!reserved.contains w || typeWords.contains w)
        dotted
      if (← looksAt "<") && !(← afterNewline) then typeArguments self

def operandType (self : Rules) : Nat → Reader Unit
  | 0 => failure
  | fuel + 1 => do
    let w ← word
    let prefixed : Reader Unit := do
      ensure (["keyof", "unique", "readonly", "asserts"].contains w)
      keyword w
      operandType self fuel
    let inferred : Reader Unit := do
      keyword "infer"
      identifier
      optional do
        keyword "extends"
        self .unionType
        ensure !(← looksAt "?")
    let queried : Reader Unit := do
      keyword "typeof"
      if ← looksAtWord "import" then simpleType self
      else
        dotted
        if (← looksAt "<") && !(← afterNewline) then typeArguments self
    prefixed <|> inferred <|> queried <|> simpleType self
    loop do
      if (← looksAt "[") && !(← afterNewline) then
        symbol "["
        optional (self .type)
        symbol "]"
        return true
      else return false
    if (← looksAtWord "is") && !(← afterNewline) then
      keyword "is"
      self .type

def typeOperator? : Text → Bool
  | '|' :: t => t.head? != some '|'
  | '&' :: t => t.head? != some '&'
  | _ => false

def unionType (self : Rules) : Reader Unit := do
  let operator : Reader Bool := do
    if typeOperator? (← rest) then
      token .token 1
      return true
    else return false
  let _ ← operator
  let operand : Reader Unit := do operandType self ((← rest).length + 1)
  operand
  loop do
    if ← operator then
      operand
      return true
    else return false

def functionType (self : Rules) : Reader Unit := do
  let _ ← keyword? "abstract"
  let _ ← keyword? "new"
  if ← looksAt "<" then typeParameters self
  parameters self
  symbol "=>"
  self .type

def type (self : Rules) : Reader Unit := node .other do
  functionType self <|> do
    self .unionType
    if (← looksAtWord "extends") && !(← afterNewline) then
      keyword "extends"
      self .unionType
      symbol "?"
      self .type
      symbol ":"
      self .type

end TemplateSqueeze.Grammar.Reader
