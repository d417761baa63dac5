namespace TemplateSqueeze

abbrev Text := List Char

namespace Text

def bytes (t : Text) : List UInt8 := t.flatMap String.utf8EncodeChar

def size : Text → Nat
  | [] => 0
  | c :: t => c.utf8Size + size t

/-- Characters beyond U+FFFF take a pair of UTF-16 units. -/
def unitsOf (c : Char) : Nat := if c.toNat < 0x10000 then 1 else 2

def units : Text → Nat
  | [] => 0
  | c :: t => unitsOf c + units t

@[simp] theorem size_nil : size [] = 0 := rfl

@[simp] theorem size_cons (c : Char) (t : Text) : size (c :: t) = c.utf8Size + size t := rfl

@[simp] theorem size_append (a b : Text) : size (a ++ b) = size a + size b := by
  induction a with
  | nil => simp
  | cons c a ih => simp [ih, Nat.add_assoc]

theorem length_bytes (t : Text) : t.bytes.length = t.size := by
  induction t with
  | nil => rfl
  | cons c t ih =>
    have h : bytes (c :: t) = String.utf8EncodeChar c ++ bytes t := rfl
    rw [h, List.length_append, ih, String.length_utf8EncodeChar, size_cons]

def drop? (n : Nat) : Text → Option Text
  | [] => if n = 0 then some [] else none
  | c :: t =>
    if n = 0 then some (c :: t)
    else if n < c.utf8Size then none
    else drop? (n - c.utf8Size) t

def take? (n : Nat) : Text → Option Text
  | [] => if n = 0 then some [] else none
  | c :: t =>
    if n = 0 then some []
    else if n < c.utf8Size then none
    else (take? (n - c.utf8Size) t).map (c :: ·)

/-- The text between two offsets, if both are character boundaries and in order. -/
def slice? (t : Text) (start stop : Nat) : Option Text :=
  if start ≤ stop then (t.drop? start).bind (take? (stop - start)) else none

def charAt? (t : Text) (offset : Nat) : Option Char := (t.drop? offset).bind List.head?

def charBefore? (t : Text) (offset : Nat) : Option Char := (t.take? offset).bind List.getLast?

/-- The longest beginning of the text whose characters weigh no more than `limit`. -/
def fitting (weight : Char → Nat) (limit : Nat) : Text → Text
  | [] => []
  | c :: t => if weight c ≤ limit then c :: fitting weight (limit - weight c) t else []

def isAscii (t : Text) : Bool := t.all (·.toNat < 128)

end Text

end TemplateSqueeze
