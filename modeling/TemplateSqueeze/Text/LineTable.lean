import TemplateSqueeze.Text.Basic

namespace TemplateSqueeze

structure Position where
  line : Nat
  column : Nat
  deriving DecidableEq, Repr

def Position.precedes (p q : Position) : Bool :=
  p.line < q.line || (p.line == q.line && p.column < q.column)

/-- One line of a text. Its content ends before the line feed, and before one carriage return
that stands there or at the end of the text. -/
structure Line where
  start : Nat
  content : Text
  size : Nat := content.size
  ascii : Bool := content.isAscii
  size_eq : size = content.size := by rfl
  ascii_eq : ascii = content.isAscii := by rfl

namespace Line

def withoutReturn : Text → Text
  | [] => []
  | ['\r'] => []
  | c :: t => c :: withoutReturn t

def ofText (start : Nat) (t : Text) : Line := { start, content := withoutReturn t }

def stop (l : Line) : Nat := l.start + l.size

/-- Offsets before the line count as its start, those after its content as the content's end. -/
def columnAt (l : Line) (offset : Nat) : Nat :=
  let within := min (offset - l.start) l.size
  if l.ascii then within else Text.units (Text.fitting Char.utf8Size within l.content)

/-- The last boundary of the content whose column does not exceed the one asked for. -/
def offsetAt (l : Line) (column : Nat) : Nat :=
  if l.ascii then l.start + min column l.size
  else l.start + Text.size (Text.fitting Text.unitsOf column l.content)

end Line

namespace Text

def splitLines : Text → List Text
  | [] => [[]]
  | c :: t =>
    if c = '\n' then [] :: splitLines t
    else match splitLines t with
      | [] => [[c]]
      | l :: ls => (c :: l) :: ls

theorem splitLines_ne_nil (t : Text) : splitLines t ≠ [] := by
  cases t with
  | nil => simp [splitLines]
  | cons c t =>
    rw [splitLines]
    split
    · simp
    · split <;> simp

end Text

namespace Line

def layout (start : Nat) : List Text → List Line
  | [] => []
  | t :: ts => ofText start t :: layout (start + t.size + 1) ts

theorem length_layout (start : Nat) (ts : List Text) : (layout start ts).length = ts.length := by
  induction ts generalizing start with
  | nil => rfl
  | cons t ts ih => simp [layout, ih]

end Line

structure LineTable where
  lines : Array Line
  nonempty : 0 < lines.size

namespace LineTable

def ofText (t : Text) : LineTable where
  lines := (Line.layout 0 t.splitLines).toArray
  nonempty := by
    have h := List.length_pos_iff.2 (Text.splitLines_ne_nil t)
    simpa [Line.length_layout] using h

def starts (x : LineTable) : List Nat := x.lines.toList.map Line.start

/-- The last index in `lo ..< hi` whose line starts no later than `offset`, or `lo` if none does:
the interval is halved as long as it holds more than one line. -/
def search (lines : Array Line) (offset lo hi : Nat) : Nat :=
  if hi ≤ lo + 1 then lo
  else
    let mid := (lo + hi) / 2
    match lines[mid]? with
    | some l => if l.start ≤ offset then search lines offset mid hi else search lines offset lo mid
    | none => lo
termination_by hi - lo

def lineAt (x : LineTable) (offset : Nat) : Nat := search x.lines offset 0 x.lines.size

def positionOf (x : LineTable) (offset : Nat) : Position :=
  let line := x.lineAt offset
  match x.lines[line]? with
  | some l => ⟨line, l.columnAt offset⟩
  | none => ⟨line, 0⟩

/-- `none` when there is no such line; a column past the content counts as the content's end. -/
def offsetOf? (x : LineTable) (p : Position) : Option Nat :=
  x.lines[p.line]?.map (·.offsetAt p.column)

def startsLine (x : LineTable) (offset : Nat) : Bool :=
  match x.lines[x.lineAt offset]? with
  | some l => l.start == offset
  | none => false

end LineTable

end TemplateSqueeze
