import TemplateSqueeze.Grammar.Declaration

namespace TemplateSqueeze.Grammar.Reader

def statements (self : Rules) : Reader Unit := loop do
  skipMarkup
  let w ← word
  if (← atEnd) || (← looksAt "\x7d") || w == "case" || w == "default" then return false
  self .statement <|> stray
  return true

def block (self : Rules) (fits : Bool) : Reader Unit := node .block do
  symbol "\x7b"
  statements self
  symbol "\x7d"
  optional (implicitEnd fits)

/-- Whether a block that begins here might be an object as well. -/
def looksAtEmptyObject : Reader Bool := would do
  symbol "\x7b"
  symbol "\x7d"

def ifStatement (self : Rules) : Reader Unit := do
  keyword "if"
  parenthesized self
  self .statement
  if ← keyword? "else" then self .statement

def iteration (self : Rules) : Reader Unit := do
  (do
    variableWords
    self .binding
    initializer self) <|> self .target
  keyword "of" <|> keyword "in"
  self .sequence

def progression (self : Rules) : Reader Unit := do
  unless ← looksAt ";" do
    (do
      let _ ← declaredVariables self) <|> self .sequence
  symbol ";"
  unless ← looksAt ";" do self .sequence
  symbol ";"
  unless ← looksAt ")" do self .sequence

def forStatement (self : Rules) : Reader Unit := do
  keyword "for"
  let _ ← keyword? "await"
  symbol "("
  iteration self <|> progression self
  symbol ")"
  self .statement

def whileStatement (self : Rules) : Reader Unit := do
  keyword "while" <|> keyword "with"
  parenthesized self
  self .statement

def doStatement (self : Rules) : Reader Unit := do
  keyword "do"
  self .statement
  keyword "while"
  parenthesized self
  optional (implicitEnd false)

def switchCase (self : Rules) : Reader Unit :=
  (node .switchCase do
    keyword "case"
    self .sequence
    symbol ":"
    statements self) <|>
  node .switchDefault do
    keyword "default"
    symbol ":"
    statements self

def switchStatement (self : Rules) : Reader Unit := do
  keyword "switch"
  parenthesized self
  node .other do
    symbol "\x7b"
    loop do
      if ← looksAt "\x7d" then return false
      switchCase self
      return true
    symbol "\x7d"

def tryStatement (self : Rules) : Reader Unit := do
  keyword "try"
  self (.block false)
  if ← keyword? "catch" then
    if ← symbol? "(" then
      self .binding
      annotation self
      symbol ")"
    self (.block false)
  if ← keyword? "finally" then self (.block false)

def returnStatement (self : Rules) : Reader Unit := do
  keyword "return"
  semicolon false <|> do
    self .sequence
    semicolon true

def throwStatement (self : Rules) : Reader Unit := do
  keyword "throw"
  self .sequence
  semicolon true

def jumpStatement : Reader Unit := do
  keyword "break" <|> keyword "continue" <|> keyword "debugger"
  semicolon false <|> do
    identifier
    semicolon false

def labelledStatement (self : Rules) : Reader Unit := do
  identifier
  symbol ":"
  self .statement

def expressionStatement (self : Rules) : Reader Unit := node .expressionStatement do
  ensure !(← looksAt "\x7b")
  self .sequence
  semicolon true

def typedDeclaration (self : Rules) : Reader Unit := do
  ensure (← typed)
  let w ← word
  if w == "interface" then interfaceDeclaration self
  else if w == "enum" || w == "const" then enumDeclaration self
  else if w == "type" then typeDeclaration self
  else if w == "declare" then ambientDeclaration self
  else if w == "namespace" then namespaceStatement self
  else if w == "module" then moduleStatement self
  else failure

def wordedStatement (self : Rules) (w : String) : Reader Unit :=
  match w with
  | "if" => ifStatement self
  | "for" => forStatement self
  | "while" | "with" => whileStatement self
  | "do" => doStatement self
  | "switch" => switchStatement self
  | "try" => tryStatement self
  | "return" => returnStatement self
  | "throw" => throwStatement self
  | "break" | "continue" | "debugger" => jumpStatement
  | _ => labelledStatement self

def declaration (self : Rules) (w : String) : Reader Unit :=
  match w with
  | "function" | "async" => functionDeclaration self true <|> functionSignature self
  | "class" | "abstract" => classDeclaration self true
  | "import" => importStatement self <|> importRequirement self <|> importAlias
  | "export" => exportStatement self
  | "var" | "let" | "const" | "using" | "await" =>
    typedDeclaration self <|> variableDeclaration self
  | _ => typedDeclaration self

def statement (self : Rules) : Reader Unit := do
  skipMarkup
  match ← next? with
  | some '\x7b' => self (.block (← looksAtEmptyObject))
  | some ';' => node .statement (symbol ";")
  | some '@' => exportStatement self <|> classDeclaration self true <|> expressionStatement self
  | _ =>
    let w ← word
    if w == "" then expressionStatement self
    else
      node .statement (wordedStatement self w) <|> declaration self w <|> expressionStatement self

end TemplateSqueeze.Grammar.Reader
