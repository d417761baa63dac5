import TemplateSqueeze.Grammar.Element
import TemplateSqueeze.Grammar.Function

namespace TemplateSqueeze.Grammar

def binaryOperators : List String :=
  ["+", "-", "*", "/", "%", "**", "<<", ">>", ">>>", "<", ">", "<=", ">=", "==", "!=", "===", "!==",
    "&", "|", "^", "&&", "||", "??"]

def assignmentOperators : List String :=
  ["=", "+=", "-=", "*=", "/=", "%=", "**=", "<<=", ">>=", ">>>=", "&=", "|=", "^=", "&&=", "||=",
    "??="]

def punctuators : List String :=
  let all := binaryOperators ++ assignmentOperators ++ ["=>", "?.", "?", "++", "--", "!"]
  all.filter (·.length = 4) ++ all.filter (·.length = 3) ++ all.filter (·.length = 2) ++
    all.filter (·.length = 1)

/-- The longest operator that a text begins with. A digit behind `?.` belongs to a fraction. -/
def punctuator? (t : Text) : Option String :=
  match t with
  | '?' :: '.' :: d :: _ => if d.isDigit then some "?" else some "?."
  | _ => punctuators.find? (·.toList.isPrefixOf t)

namespace Reader

def looksAtOperator (operator : String) : Reader Bool :=
  return punctuator? (← rest) == some operator

def parenthesized (self : Rules) : Reader Unit := node .other do
  symbol "("
  self .sequence
  symbol ")"

/-- Whether type arguments can end here without being applied. -/
def endsInstance : Reader Bool := do
  return (← atEnd) || (← afterNewline) || (← rest).head?.any (")],;:\x7d".toList.contains ·)

def constructed (self : Rules) : Reader Unit := do
  if ← symbol? "." then name
  else
    self .access
    if ← typed then
      optional do
        typeArguments self
        ensure ((← looksAt "(") || (← endsInstance))
    if ← looksAt "(" then arguments self

def worded (self : Rules) : Reader Unit := do
  let w ← word
  if w == "function" then function self
  else if w == "async" && (← would (do keyword "async"; keyword "function")) then function self
  else if w == "class" then node .other (classBody self)
  else if w == "new" then
    node .other do
      keyword "new"
      constructed self
  else if ["this", "super", "null", "true", "false", "import"].contains w then name
  else identifier

def primary (self : Rules) : Reader Unit := do
  match ← next? with
  | some '(' => parenthesized self
  | some '[' =>
    node .other do
      symbol "["
      listed "]" (spreadable self)
  | some '\x7b' => object self
  | some '\x60' => templateLiteral self
  | some '/' => regex
  | some '<' =>
    ensure ((← get).language != .ts)
    self .element
    skipTrivia
  | some '@' =>
    node .other do
      decorators self
      classBody self
  | some '#' =>
    rawSymbol "#"
    name
  | _ => string <|> number <|> worded self

def property : Reader Unit := do
  if ← looksAt "#" then rawSymbol "#"
  name

def index (self : Rules) : Reader Unit := do
  symbol "["
  self .sequence
  symbol "]"
  close .other

def step (self : Rules) : Reader Unit := do
  if ← looksAt "[" then index self
  else
    ensure !(← looksAt "...")
    symbol "."
    property
    close .other

def application (self : Rules) : Reader Unit := do
  if ← looksAt "\x60" then templateLiteral self else arguments self
  close .call

def instantiation (self : Rules) : Reader Unit := do
  typeArguments self
  if (← looksAt "(") || (← looksAt "\x60") then application self
  else
    ensure (← endsInstance)
    close .other

def continuation (self : Rules) : Reader Unit := do
  if ← looksAtOperator "?." then
    symbol "?."
    if (← looksAt "(") || (← looksAt "\x60") then application self
    else if ← looksAt "[" then index self
    else if (← typed) && (← looksAt "<") then instantiation self
    else
      property
      close .other
  else if (← looksAt "(") || (← looksAt "\x60") then application self
  else if (← typed) && (← looksAt "<") then instantiation self
  else if (← typed) && (← looksAtOperator "!") && !(← afterNewline) then
    symbol "!"
    close .other
  else step self

def operand (self : Rules) : Reader Unit := frame do
  primary self
  loop (found (continuation self))
  if ((← looksAt "++") || (← looksAt "--")) && !(← afterNewline) then
    token .token 2
    close .other

/-- Reads what `new` makes something of: calls are left out. -/
def access (self : Rules) : Reader Unit := frame do
  primary self
  loop (found (step self))

def unary (self : Rules) : Reader Unit := do
  skipMarkup
  let w ← word
  if (← looksAt "++") || (← looksAt "--") then
    node .other do
      token .token 2
      self .unary
  else if (← next?).any ("!~+-".toList.contains ·) then
    node .other do
      token .token 1
      self .unary
  else if ["typeof", "void", "delete", "await"].contains w then
    node .other do
      keyword w
      self .unary
  else if (← get).language == .ts && (← looksAt "<") then
    node .other do
      symbol "<"
      keyword "const" <|> self .type
      symbol ">"
      self .unary
  else operand self

def operation (self : Rules) : Reader Unit := do
  match punctuator? (← rest) with
  | some operator =>
    ensure (binaryOperators.contains operator)
    token .token operator.length
    self .unary
  | none =>
    let w ← word
    if w == "in" || w == "instanceof" then
      keyword w
      self .unary
    else
      ensure ((← typed) && !(← afterNewline) && (w == "as" || w == "satisfies"))
      keyword w
      keyword "const" <|> self .type

/-- Reads the two ways that a condition leads to. The first may be taken for the parameters of a
function that declares its result; if no colon is left then, it was none. -/
def choice (self : Rules) (plain : Bool) : Reader Unit := do
  token .token 1
  (do
    self (.assignment false)
    ensure (← looksAt ":")) <|> self (.assignment true)
  symbol ":"
  self (.assignment plain)

def chain (self : Rules) (plain : Bool) : Reader Unit := frame do
  self .unary
  loop <| found do
    operation self
    close .other
  match punctuator? (← rest) with
  | some operator =>
    if assignmentOperators.contains operator then
      token .token operator.length
      self (.assignment plain)
      close .other
    else if operator == "?" then
      choice self plain
      close .other
  | none => return

def yielded (self : Rules) : Reader Unit := node .other do
  keyword "yield"
  if ← symbol? "*" then self (.assignment false)
  else unless ← afterNewline do optional (self (.assignment false))

def destructuring (self : Rules) : Reader Unit := node .other do
  ensure ((← looksAt "[") || (← looksAt "\x7b"))
  target self
  ensure (← looksAtOperator "=")
  symbol "="
  self (.assignment false)

def wasArrowHead (self : Rules) (plain : Bool) (earlier : State) : Reader Bool := do
  if ← looksAt "=>" then return true
  else if plain || !(← typed) || !(← looksAt ":") then return false
  else
    let later ← get
    set earlier
    let head ← would (arrowHead self false)
    set later
    return head

def assignment (self : Rules) (plain : Bool) : Reader Unit := do
  skipMarkup
  let w ← word
  let earlier ← get
  let function : Reader Unit := do
    ensure (w == "async" || ((← typed) && (← looksAt "<")))
    arrow self plain
  let value : Reader Unit := do
    chain self plain
    ensure !(← wasArrowHead self plain earlier)
  if w == "yield" then yielded self
  else function <|> value <|> arrow self plain <|> destructuring self

def sequence (self : Rules) : Reader Unit := frame do
  self (.assignment false)
  if ← looksAt "," then
    loop do
      if ← symbol? "," then
        self (.assignment false)
        return true
      else return false
    close .other

end Reader

end TemplateSqueeze.Grammar
