import TemplateSqueeze.Grammar.Statement

namespace TemplateSqueeze.Grammar

open Reader in
def rule (self : Rules) : Rules
  | .statement => statement self
  | .block fits => block self fits
  | .sequence => sequence self
  | .assignment plain => assignment self plain
  | .unary => unary self
  | .access => access self
  | .binding => binding self
  | .target => target self
  | .type => type self
  | .unionType => unionType self
  | .element => element self

/-- The rules, as far as goals lie no deeper in each other than `fuel`. -/
def rules : Nat → Rules
  | 0, _ => failure
  | fuel + 1, goal => rule (rules fuel) goal

def Reader.shellLine : Reader Unit := do
  if ← looksAt "#!" then
    token .other ((← rest).takeWhile (!isLineTerminator ·)).length

def Reader.program (self : Rules) : Reader Unit := do
  shellLine
  skipTrivia
  loop do
    statements self
    found stray

end TemplateSqueeze.Grammar

namespace TemplateSqueeze

open Grammar in
/-- The tree of a source. No character opens more than a few goals within each other. -/
def parse (language : Language) (source : Text) : Node :=
  let start : State := { language, rest := source, offset := 0 }
  let nodes :=
    match Reader.program (rules (16 * (source.length + 4))) start with
    | some (_, s) => s.nodes.reverse
    | none => []
  ⟨.program, 0, source.size, nodes.any (·.faulty), nodes⟩

end TemplateSqueeze
