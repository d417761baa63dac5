import TemplateSqueeze.Command.Directory
import TemplateSqueeze.Command.Squeeze

namespace TemplateSqueeze.Command

def SystemError.ofFault : IO.Error → SystemError
  | .noFileOrDirectory .. => .notFound
  | .inappropriateType _ code _ => if code = 21 then .isADirectory else .notADirectory
  | e => .other e.toString.toList

def kept {α : Type} (action : IO α) : IO (Except SystemError α) := do
  try return .ok (← action)
  catch e => return .error (.ofFault e)

def fileHost : Host IO where
  read path := do
    let bytes ← kept (IO.FS.readBinFile (String.ofList path))
    return bytes.bind fun b ↦
      match String.fromUTF8? b with
      | some s => .ok s.toList
      | none => .error .notText
  write path text := kept (IO.FS.writeFile (String.ofList path) (String.ofList text))
  isThere path := do ((← IO.currentDir) / String.ofList path).pathExists
  filesIn path := kept do
    let entries ← ((← IO.currentDir) / String.ofList path).readDir
    let files ← entries.toList.filterM fun e ↦ return (← e.path.metadata).type == .file
    return files.map (·.fileName.toList)
  print text := IO.print (String.ofList text)
  warn text := IO.eprint (String.ofList text)

end TemplateSqueeze.Command

open TemplateSqueeze.Command

def main (arguments : List String) : IO UInt32 := do
  let status ←
    match arguments with
    | "trim" :: rest => squeezeStatus fileHost (rest.map String.toList)
    | "fixtures" :: rest => directoryStatus fileHost (rest.map String.toList)
    | _ => pure usageStatus
  return status.toUInt32
