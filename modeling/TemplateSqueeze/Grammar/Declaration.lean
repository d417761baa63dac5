import TemplateSqueeze.Grammar.Expression

namespace TemplateSqueeze.Grammar.Reader

def declarators (self : Rules) : Nat → Reader Bool
  | 0 => failure
  | fuel + 1 => do
    self .binding
    if ← typed then
      let _ ← symbol? "!"
    annotation self
    let valued ← looksAt "="
    initializer self
    if ← symbol? "," then declarators self fuel else return valued

def variableWords : Reader Unit := do
  let w ← word
  if w == "await" then
    keyword w
    keyword "using"
  else
    ensure (["var", "let", "const", "using"].contains w)
    keyword w

def declaredVariables (self : Rules) : Reader Bool := do
  variableWords
  declarators self ((← rest).length + 1)

def variableDeclaration (self : Rules) : Reader Unit := node .declaration do
  let valued ← declaredVariables self
  semicolon valued

/-- Reads a function with a body. A line break behind it is an end of its own. Where it might be a
value as well, an operator `fits` behind it. -/
def functionDeclaration (self : Rules) (fits : Bool) : Reader Unit := node .declaration do
  functionHead self identifier
  self (.block fits)
  optional (implicitEnd fits)

def functionSignature (self : Rules) : Reader Unit := node .other do
  ensure (← typed)
  functionHead self identifier
  semicolon false

def classDeclaration (self : Rules) (fits : Bool) : Reader Unit := node .declaration do
  decorators self
  if (← typed) && (← looksAtWord "abstract") then
    keyword "abstract"
    classBody self
  else
    ensure (← would (do keyword "class"; identifier))
    classBody self
    optional (implicitEnd fits)

def interfaceDeclaration (self : Rules) : Reader Unit := node .declaration do
  keyword "interface"
  identifier
  if ← looksAt "<" then typeParameters self
  if ← keyword? "extends" then
    self .type
    loop do
      if ← symbol? "," then
        self .type
        return true
      else return false
  objectType self

def enumDeclaration (self : Rules) : Reader Unit := node .declaration do
  let _ ← keyword? "const"
  keyword "enum"
  identifier
  symbol "\x7b"
  listed "\x7d" do
    propertyName self
    initializer self

def typeDeclaration (self : Rules) : Reader Unit := node .declaration do
  keyword "type"
  identifier
  if ← looksAt "<" then typeParameters self
  symbol "="
  self .type
  semicolon false

def namespaceStatement (self : Rules) : Reader Unit := node .expressionStatement do
  keyword "namespace"
  ensure !(← afterNewline)
  dotted
  self (.block false)
  semicolon true

def moduleStatement (self : Rules) : Reader Unit := node .other do
  keyword "module"
  ensure !(← afterNewline)
  dotted <|> string
  optional (self (.block false))

def declaredWords : List String :=
  ["var", "let", "const", "function", "async", "class", "abstract", "interface", "enum", "type",
    "namespace", "module", "import", "using"]

def ambientDeclaration (self : Rules) : Reader Unit := node .declaration do
  keyword "declare"
  if ← looksAtWord "global" then
    keyword "global"
    self (.block false)
  else
    ensure (declaredWords.contains (← word))
    self .statement

def nameList : Reader Unit := node .other do
  symbol "\x7b"
  listed "\x7d" do
    name <|> string
    loop (found (name <|> string))

def fromClause : Reader Unit := do
  keyword "from"
  string

def importAttributes (self : Rules) : Reader Unit := optional do
  keyword "with" <|> keyword "assert"
  object self

def importClause : Reader Unit := do
  let names : Reader Unit := nameList <|> do
    symbol "*"
    keyword "as"
    name
  let clause : Reader Unit := do
    names <|> do
      identifier
      if ← symbol? "," then names
    fromClause
  (do
    keyword "type" <|> keyword "typeof" <|> keyword "defer" <|> keyword "source"
    clause) <|> clause

def importStatement (self : Rules) : Reader Unit := node .statement do
  keyword "import"
  string <|> importClause
  importAttributes self
  semicolon false

def importRequirement (self : Rules) : Reader Unit := node .statement do
  ensure (← typed)
  keyword "import"
  optional do
    keyword "type"
    ensure !(← looksAt "=")
  identifier
  symbol "="
  keyword "require"
  arguments self
  semicolon false

def importAlias : Reader Unit := node .other do
  ensure (← typed)
  keyword "import"
  identifier
  symbol "="
  dotted
  semicolon false

def exportDefault (self : Rules) : Reader Unit := do
  keyword "default"
  functionDeclaration self true <|> functionSignature self <|> classDeclaration self true <|>
    (do ensure (← typed); interfaceDeclaration self) <|> do
      self (.assignment false)
      semicolon true

def exportNames (self : Rules) : Reader Unit := do
  if ← typed then optional do
    keyword "type"
    ensure ((← looksAt "\x7b") || (← looksAt "*"))
  if ← symbol? "*" then
    if ← keyword? "as" then name <|> string
    fromClause
    importAttributes self
  else
    nameList
    if ← looksAtWord "from" then
      fromClause
      importAttributes self
  semicolon false

def exportWhole (self : Rules) : Reader Unit := do
  ensure (← typed)
  if ← symbol? "=" then
    self .sequence
    semicolon true
  else
    keyword "as"
    keyword "namespace"
    identifier
    semicolon false

def exportStatement (self : Rules) : Reader Unit := node .statement do
  decorators self
  keyword "export"
  exportDefault self <|> exportNames self <|> exportWhole self <|>
    functionDeclaration self false <|> classDeclaration self false <|> self .statement

end TemplateSqueeze.Grammar.Reader
