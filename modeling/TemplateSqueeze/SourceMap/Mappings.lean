import TemplateSqueeze.SourceMap.Vlq

namespace TemplateSqueeze.SourceMap

structure Tables where
  sources : Array Text
  names : Array Text

/-- What a segment's differences are added to. Only the column starts afresh on every line. -/
structure Cursor where
  source : Nat := 0
  line : Nat := 0
  column : Nat := 0
  name : Nat := 0
  deriving Repr

namespace Cursor

def advance (a : Nat) (by_ : Int) : Nat := wrap (a + by_)

end Cursor

def Tables.place (tables : Tables) (at_ : Cursor) :
    List Int → Except MapError (Place × Cursor)
  | [] => .ok (.nowhere, at_)
  | [source, line, column] => do
    let index := Cursor.advance at_.source source
    let some file := tables.sources[index]? | .error (.sourceReference index)
    let next :=
      { at_ with
        source := index
        line := Cursor.advance at_.line line
        column := Cursor.advance at_.column column }
    .ok (⟨next.line, next.column, some file, none⟩, next)
  | [source, line, column, name] => do
    let index := Cursor.advance at_.source source
    let some file := tables.sources[index]? | .error (.sourceReference index)
    let nameIndex := Cursor.advance at_.name name
    let some word := tables.names[nameIndex]? | .error (.nameReference nameIndex)
    let next : Cursor :=
      ⟨index, Cursor.advance at_.line line, Cursor.advance at_.column column, nameIndex⟩
    .ok (⟨next.line, next.column, some file, some word⟩, next)
  | fields => .error (.segmentSize (fields.length + 1))

/-- The segments of a generated line; `flags` says which of them are ranged, by their index. -/
def Tables.segments (tables : Tables) (line : Nat) (flags : List Bool) (at_ : Cursor)
    (column : Nat) : List Text → Except MapError (List Token × Cursor)
  | [] => .ok ([], at_)
  | segment :: more => do
    if segment = [] then tables.segments line flags.tail at_ column more
    else
      match ← Vlq.decode segment.bytes with
      | [] => tables.segments line flags.tail at_ column more
      | first :: fields =>
        let column := Cursor.advance column first
        let (place, next) ← tables.place at_ fields
        let (tokens, last) ← tables.segments line flags.tail next column more
        .ok (⟨⟨line, column⟩, place, flags.headD false⟩ :: tokens, last)

def rangeFlags : List UInt8 → Except MapError (List Bool)
  | [] => .ok []
  | b :: bs =>
    match Vlq.sextet? b with
    | none => .error (.rangeDigit (Char.ofNat b.toNat))
    | some d => (rangeFlags bs).map ((List.range 6).map d.testBit ++ ·)

def Tables.lines (tables : Tables) (line : Nat) (at_ : Cursor) :
    List Text → List Text → Except MapError (List Token)
  | [], _ => .ok []
  | group :: groups, ranges => do
    if group = [] then tables.lines (line + 1) at_ groups ranges.tail
    else
      let flags ← rangeFlags (Text.bytes (ranges.headD []))
      let (tokens, next) ← tables.segments line flags at_ 0 (group.splitOn ',')
      let rest ← tables.lines (line + 1) next groups ranges.tail
      .ok (tokens ++ rest)

def Tables.tokens (tables : Tables) (mappings ranges : Text) : Except MapError (List Token) :=
  tables.lines 0 {} (mappings.splitOn ';') (ranges.splitOn ';')

structure Interned where
  strings : Array Text := #[]

def Interned.add (t : Interned) (s : Text) : Nat × Interned :=
  match t.strings.findIdx? (· == s) with
  | some i => (i, t)
  | none => (t.strings.size, ⟨t.strings.push s⟩)

structure Writer where
  sources : Interned := {}
  names : Interned := {}
  position : Position := ⟨0, 0⟩
  cursor : Cursor := {}
  started : Bool := false

namespace Writer

def difference (a b : Nat) : Text := Vlq.encode ((a : Int) - b)

def placeFields (w : Writer) (p : Place) : Text × Writer :=
  match p.source with
  | none =>
    match p.name with
    | none => ([], w)
    | some name => ([], { w with names := (w.names.add name).2 })
  | some source =>
    let (sourceIndex, sources) := w.sources.add source
    let fields := difference sourceIndex w.cursor.source ++ difference p.line w.cursor.line ++
      difference p.column w.cursor.column
    let next := { w.cursor with source := sourceIndex, line := p.line, column := p.column }
    match p.name with
    | none => (fields, { w with sources, cursor := next })
    | some name =>
      let (nameIndex, names) := w.names.add name
      (fields ++ difference nameIndex w.cursor.name,
        { w with sources, names, cursor := { next with name := nameIndex } })

def token (w : Writer) (t : Token) : Text × Writer :=
  let sameLine := t.position.line = w.position.line
  let lead :=
    if sameLine then (if w.started then [','] else [])
    else List.replicate (t.position.line - w.position.line) ';'
  let column := difference t.position.column (if sameLine then w.position.column else 0)
  let (fields, next) := w.placeFields t.place
  (lead ++ column ++ fields, { next with position := t.position, started := true })

def tokens (w : Writer) : List Token → Text × Writer
  | [] => ([], w)
  | t :: ts =>
    let (first, next) := w.token t
    let (rest, last) := tokens next ts
    (first ++ rest, last)

end Writer

end TemplateSqueeze.SourceMap
