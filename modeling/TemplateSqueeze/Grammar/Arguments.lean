import TemplateSqueeze.Grammar.Lexical

namespace TemplateSqueeze.Grammar.Reader

def listed (closing : String) (item : Reader Unit) : Reader Unit := do
  loop do
    if ← looksAt closing then return false
    optional item
    symbol? ","
  symbol closing

def stray : Reader Unit := do
  let t ← rest
  ensure (!t.isEmpty)
  token .other (max 1 (wordLength t))
  fault

/-- Whether what is open here has to end: nothing in brackets goes beyond such a place. -/
def outOfBrackets : Reader Bool :=
  return (← atEnd) || (← looksAt ";") || (← looksAt "\x7d")

def spreadable (self : Rules) : Reader Unit := do
  if ← looksAt "..." then
    node .other do
      symbol "..."
      self (.assignment false)
  else self (.assignment false)

def arguments (self : Rules) : Reader Unit := node .arguments do
  symbol "("
  loop do
    if (← looksAt ")") || (← outOfBrackets) then return false
    unless ← symbol? "," do
      spreadable self <|> stray
      unless (← looksAt ",") || (← looksAt ")") do fault
    return true
  symbol ")" <|> fault

def substituted (self : Rules) : Reader Unit := do
  if ← looksAt "\x7d" then fault
  loop do
    if (← looksAt "\x7d") || (← atEnd) then return false
    self .sequence <|> stray
    unless ← looksAt "\x7d" do fault
    return true

def templateLiteral (self : Rules) : Reader Unit := template (substituted self)

def typeArguments (self : Rules) : Reader Unit := node .other do
  symbol "<"
  listed ">" (self .type)

def annotation (self : Rules) : Reader Unit := do
  if ← typed then
    if ← symbol? ":" then self .type

end TemplateSqueeze.Grammar.Reader
