import TemplateSqueeze.Language

namespace TemplateSqueeze.Path

def components (path : List Char) : List (List Char) :=
  (path.splitOn '/').filter fun c ↦ c ≠ [] ∧ c ≠ ['.']

def fileName? (path : List Char) : Option (List Char) :=
  (components path).getLast?.filter (· ≠ ['.', '.'])

def splitAtLastDot? (name : List Char) : Option (List Char × List Char) :=
  if '.' ∈ name then
    let extension := (name.reverse.takeWhile (· ≠ '.')).reverse
    some (name.take (name.length - extension.length - 1), extension)
  else none

/-- What follows the last dot of the file's name, which may not be its only and first one. -/
def extension? (path : List Char) : Option (List Char) := do
  let (stem, extension) ← splitAtLastDot? (← fileName? path)
  if stem = [] then none else some extension

def join (directory name : List Char) : List Char :=
  if directory.getLast? = some '/' then directory ++ name else directory ++ '/' :: name

def language? (path : List Char) : Option Language :=
  (extension? path).bind fun e ↦ Language.ofExtension? (String.ofList e)

end TemplateSqueeze.Path
