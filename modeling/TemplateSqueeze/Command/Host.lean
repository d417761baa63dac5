import TemplateSqueeze.Source
import TemplateSqueeze.Text.Visible

namespace TemplateSqueeze.Command

inductive SystemError where
  | notFound
  | notADirectory
  | isADirectory
  | notText
  | other (message : Text)
  deriving DecidableEq, Repr

/-- Files by their paths, and the two streams that a command writes to. -/
structure Host (m : Type → Type) where
  read : Text → m (Except SystemError Text)
  write : Text → Text → m (Except SystemError Unit)
  isThere : Text → m Bool
  filesIn : Text → m (Except SystemError (List Text))
  print : Text → m Unit
  warn : Text → m Unit

inductive Failure where
  | system (error : SystemError)
  | unknownLanguage (path : Text)
  | unnamedInput
  | squeeze (error : SqueezeError)
  | mismatches (count : Nat)
  deriving DecidableEq, Repr

def SystemError.message : SystemError → Text
  | notFound =>
    "Os \x7b code: 2, kind: NotFound, message: \"No such file or directory\" \x7d".toList
  | notADirectory =>
    "Os \x7b code: 20, kind: NotADirectory, message: \"Not a directory\" \x7d".toList
  | isADirectory => "Os \x7b code: 21, kind: IsADirectory, message: \"Is a directory\" \x7d".toList
  | notText =>
    "Error \x7b kind: InvalidData, message: \"stream did not contain valid UTF-8\" \x7d".toList
  | other message => message

def mapFault : SourceMap.MapError → Text
  | .badJson => "BadJson".toList
  | .brokenHeader =>
    "Io(Custom \x7b kind: InvalidData, error: \"expected newline\" \x7d)".toList
  | .unfinishedNumber => "VlqLeftover".toList
  | .numberTooLong => "VlqOverflow".toList
  | .segmentSize n => s!"BadSegmentSize({n})".toList
  | .sourceReference n => s!"BadSourceReference({n})".toList
  | .nameReference n => s!"BadNameReference({n})".toList
  | .incompatible => "IncompatibleSourceMap".toList
  | .rangeDigit c => "InvalidBase64('".toList ++ Text.spellVisible '\'' c ++ "')".toList

def squeezeFault : SqueezeError → Text
  | .tree => "ParseFailed".toList
  | .edit e => "InvalidEdit(".toList ++ Text.quoteVisible e.message.toList ++ ")".toList
  | .map e => "SourceMap(".toList ++ mapFault e ++ ")".toList

def Failure.message : Failure → Text
  | system e => e.message
  | unknownLanguage path =>
    let why := "could not infer language from ".toList ++ path ++ "; pass --language".toList
    "Custom \x7b kind: Other, error: ".toList ++ Text.quoteVisible why ++ " \x7d".toList
  | unnamedInput => "\"input file must have a valid filename\"".toList
  | squeeze e => squeezeFault e
  | mismatches n => s!"\"{n} validation error(s)\"".toList

abbrev Run (m : Type → Type) := ExceptT Failure m

variable {m : Type → Type} [Monad m]

namespace Run

def attempt {α : Type} (action : m (Except SystemError α)) : Run m α := do
  match ← action with
  | .ok a => return a
  | .error e => throw (.system e)

def ofSqueeze {α : Type} : Except SqueezeError α → Run m α
  | .ok a => return a
  | .error e => throw (.squeeze e)

def printLine (host : Host m) (line : Text) : Run m Unit := host.print (line ++ ['\n'])

end Run

/-- The status that a command ends with: a failure is told first. -/
def status (host : Host m) (run : Run m Unit) : m Nat := do
  match ← run with
  | .ok () => return 0
  | .error e =>
    host.warn ("Error: ".toList ++ e.message ++ ['\n'])
    return 1

def usageStatus : Nat := 2

end TemplateSqueeze.Command
