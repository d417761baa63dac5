import TemplateSqueeze.Grammar.Semicolon
import TemplateSqueeze.Grammar.Types

namespace TemplateSqueeze.Grammar.Reader

def functionHead (self : Rules) (named : Reader Unit) : Reader Unit := do
  let _ ← keyword? "async"
  keyword "function"
  let _ ← symbol? "*"
  named
  signature self

def function (self : Rules) : Reader Unit := node .other do
  functionHead self (optional identifier)
  self (.block true)

def arrowHead (self : Rules) (plain : Bool) : Reader Unit := do
  let declared : Reader Unit := do
    identifier <|> do
      if (← typed) && (← looksAt "<") then typeParameters self
      parameters self
      unless plain do annotation self
    symbol "=>"
  (do
    keyword "async"
    declared) <|> declared

def arrow (self : Rules) (plain : Bool) : Reader Unit := node .other do
  arrowHead self plain
  if ← looksAt "\x7b" then self (.block true) else self (.assignment plain)

def memberWords : List String :=
  ["static", "async", "get", "set", "abstract", "accessor", "declare", "override", "private",
    "protected", "public", "readonly"]

def memberName (self : Rules) : Reader Unit := do
  modifiers memberWords
  let _ ← symbol? "*"
  propertyName self

def objectMember (self : Rules) : Reader Unit := do
  let pair : Reader Unit := do
    propertyName self
    symbol ":"
    self (.assignment false)
  let method : Reader Unit := do
    memberName self
    signature self
    self (.block false)
  if ← looksAt "..." then spreadable self else node .other (pair <|> method <|> identifier)

def object (self : Rules) : Reader Unit := node .other do
  symbol "\x7b"
  listed "\x7d" (objectMember self)

def memberEnd (fits : Bool) : Reader Unit := do
  unless ← looksAt "\x7d" do
    semicolon fits <|> symbol ","

def classMember (self : Rules) : Reader Unit := node .other do
  decorators self
  let initialBlock : Reader Unit := do
    keyword "static"
    self (.block false)
  let index : Reader Unit := do
    modifiers memberWords
    symbol "["
    identifier
    symbol ":"
    self .type
    symbol "]"
    annotation self
    memberEnd false
  let method : Reader Unit := do
    memberName self
    let _ ← symbol? "?"
    signature self
    if ← looksAt "\x7b" then self (.block false) else memberEnd false
  let field : Reader Unit := do
    memberName self
    unless ← symbol? "?" do
      let _ ← symbol? "!"
    annotation self
    let valued ← looksAt "="
    initializer self
    memberEnd valued
  symbol ";" <|> initialBlock <|> index <|> method <|> field

def classBody (self : Rules) : Reader Unit := do
  keyword "class"
  unless ← looksAtWord "implements" do optional identifier
  if (← typed) && (← looksAt "<") then typeParameters self
  if ← keyword? "extends" then
    self .unary
    if (← typed) && (← looksAt "<") then typeArguments self
  if ← keyword? "implements" then
    self .type
    loop do
      if ← symbol? "," then
        self .type
        return true
      else return false
  node .other do
    symbol "\x7b"
    loop do
      if ← looksAt "\x7d" then return false
      classMember self
      return true
    symbol "\x7d"

end TemplateSqueeze.Grammar.Reader
