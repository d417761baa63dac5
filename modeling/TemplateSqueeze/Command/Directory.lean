import TemplateSqueeze.Command.Host
import TemplateSqueeze.Command.Options
import TemplateSqueeze.Path

namespace TemplateSqueeze.Command

/-- A source in a directory and the names of its outputs. -/
structure Fixture where
  name : Text
  language : Language
  outName : Text
  mapName : Text
  deriving DecidableEq, Repr

namespace Fixture

def outMark : Text := ".out.".toList

def isMarked : Text → Bool
  | [] => false
  | c :: t => outMark.isPrefixOf (c :: t) || isMarked t

/-- The fixture that a file's name stands for. Outputs of others and files in no known language
stand for none. -/
def ofName? (name : Text) : Option Fixture := do
  if isMarked name then failure
  let (stem, extension) ← Path.splitAtLastDot? name
  let language ← Language.ofExtension? (String.ofList extension)
  let outName := stem ++ outMark ++ extension
  return ⟨name, language, outName, outName ++ ".map".toList⟩

def ofNames (names : List Text) : List Fixture :=
  (names.filterMap ofName?).mergeSort fun a b ↦ !b.name.lex a.name fun c d ↦ c.toNat < d.toNat

def squeezed (f : Fixture) (source : Text) : Except SqueezeError Mapped :=
  Source.squeezeMapped Template.defaultMarker source f.name (parse f.language source)

end Fixture

structure DirectoryOptions where
  write : Bool
  directory : Text
  deriving DecidableEq, Repr

namespace DirectoryOptions

def switches : List Switch := [⟨"write".toList, some 'w', false⟩, ⟨"dir".toList, none, true⟩]

def ofArguments? (arguments : List Text) : Option DirectoryOptions := do
  let line ← arguments? switches arguments
  let [] := operands line | none
  return {
    write := ← flag? line "write"
    directory := (← pathSetting? line "dir").getD "fixtures".toList }

end DirectoryOptions

variable {m : Type → Type} [Monad m]

open Run

def writeFixture (host : Host m) (directory : Text) (f : Fixture) : Run m Unit := do
  let source ← attempt (host.read (Path.join directory f.name))
  let r ← ofSqueeze (f.squeezed source)
  let out := Path.join directory f.outName
  let map := Path.join directory f.mapName
  attempt (host.write out r.code)
  attempt (host.write map r.map)
  printLine host ("  Created ".toList ++ out ++ " and ".toList ++ map)

def writeFixtures (host : Host m) (directory : Text) : Run m Unit := do
  let fixtures := Fixture.ofNames (← attempt (host.filesIn directory))
  printLine host "Creating fixtures...".toList
  for f in fixtures do writeFixture host directory f
  printLine host s!"Done creating {fixtures.length} fixtures.".toList

def differs (host : Host m) (path expected : Text) : Run m Bool := do
  match ← host.read path with
  | .ok found => return found != expected
  | .error .notText => return true
  | .error e => throw (.system e)

/-- What is wrong with the outputs of one fixture. A map is compared only where there is one. -/
def mismatches (host : Host m) (directory : Text) (f : Fixture) : Run m (List Text) := do
  let source ← attempt (host.read (Path.join directory f.name))
  let r ← ofSqueeze (f.squeezed source)
  let out := Path.join directory f.outName
  let map := Path.join directory f.mapName
  let code : List Text ← do
    if ← host.isThere out then
      pure (if ← differs host out r.code then [f.name ++ ": code mismatch".toList] else [])
    else pure [f.name ++ ": missing output file ".toList ++ out]
  let maps : List Text ← do
    if ← host.isThere map then
      pure (if ← differs host map r.map then [f.name ++ ": sourcemap mismatch".toList] else [])
    else pure []
  return code ++ maps

def validateEach (host : Host m) (directory : Text) : List Fixture → Run m (List Text)
  | [] => return []
  | f :: fs => do
    let wrong ← mismatches host directory f
    if wrong = [] then printLine host ("  ✓ ".toList ++ f.name)
    return wrong ++ (← validateEach host directory fs)

def validateFixtures (host : Host m) (directory : Text) : Run m Unit := do
  let fixtures := Fixture.ofNames (← attempt (host.filesIn directory))
  printLine host "Validating fixtures...".toList
  let wrong ← validateEach host directory fixtures
  if wrong = [] then
    printLine host s!"\nAll {fixtures.length} fixtures validated successfully!".toList
  else
    host.warn "\nValidation failed:\n".toList
    for w in wrong do host.warn ("  ✗ ".toList ++ w ++ ['\n'])
    throw (.mismatches wrong.length)

def directoryStatus (host : Host m) (arguments : List Text) : m Nat :=
  match DirectoryOptions.ofArguments? arguments with
  | some o =>
    status host <|
      if o.write then writeFixtures host o.directory else validateFixtures host o.directory
  | none => return usageStatus

end TemplateSqueeze.Command
