import TemplateSqueeze.Command.Host

namespace TemplateSqueeze.Command

/-- Files by the names on the way to them, and what has been written to the two streams. -/
structure Memory where
  files : List (List Text × Text)
  printed : Text := []
  warned : Text := []
  deriving DecidableEq, Repr

namespace Memory

def pieces (path : Text) : List Text := path.splitOn '/'

def ofPaths (files : List (Text × Text)) : Memory :=
  { files := files.map fun (path, text) ↦ (pieces path, text) }

def fileAt? (s : Memory) (place : List Text) : Option Text :=
  (s.files.find? (·.1 = place)).map (·.2)

def isDirectory (s : Memory) (place : List Text) : Bool :=
  place = [] || s.files.any fun (way, _) ↦ place.isPrefixOf way && way != place

def enter (s : Memory) (place : List Text) (piece : Text) : Except SystemError (List Text) :=
  if s.isDirectory place then
    .ok (if piece = [] ∨ piece = ['.'] then place
      else if piece = ['.', '.'] then place.dropLast
      else place ++ [piece])
  else if (s.fileAt? place).isSome then .error .notADirectory
  else .error .notFound

def resolve (s : Memory) : List Text → Except SystemError (List Text)
  | [] => .error .notFound
  | [] :: _ => .error .notFound
  | way => way.foldlM s.enter []

def read (s : Memory) (path : Text) : Except SystemError Text := do
  let place ← s.resolve (pieces path)
  match s.fileAt? place with
  | some text => return text
  | none => throw (if s.isDirectory place then .isADirectory else .notFound)

def put (s : Memory) (place : List Text) (text : Text) : Memory :=
  { s with
    files :=
      if (s.fileAt? place).isSome then
        s.files.map fun f ↦ if f.1 = place then (place, text) else f
      else s.files ++ [(place, text)] }

def write (s : Memory) (path text : Text) : Except SystemError Memory := do
  let way := pieces path
  let last := way.getLast?.getD []
  let place ← s.resolve (if way.length = 1 then [['.']] else way.dropLast)
  if last = [] ∨ last = ['.'] ∨ last = ['.', '.'] then throw .isADirectory
  let place ← s.enter place last
  if s.isDirectory place then throw .isADirectory
  return s.put place text

def isThere (s : Memory) (path : Text) : Bool :=
  match s.resolve (pieces path) with
  | .ok place => s.isDirectory place || (s.fileAt? place).isSome
  | .error _ => false

def filesIn (s : Memory) (path : Text) : Except SystemError (List Text) := do
  let place ← s.resolve (pieces path)
  if s.isDirectory place then
    return s.files.filterMap fun (way, _) ↦
      if way.dropLast = place then way.getLast? else none
  else throw (if (s.fileAt? place).isSome then .notADirectory else .notFound)

def host : Host (StateM Memory) where
  read path := return (← get).read path
  write path text := do
    match (← get).write path text with
    | .ok s => set s; return .ok ()
    | .error e => return .error e
  isThere path := return (← get).isThere path
  filesIn path := return (← get).filesIn path
  print text := modify fun s ↦ { s with printed := s.printed ++ text }
  warn text := modify fun s ↦ { s with warned := s.warned ++ text }

end Memory

end TemplateSqueeze.Command
