import TemplateSqueeze.Text.Basic

namespace TemplateSqueeze.Template

/-- A character with its origin. A kept one is a copy of the input's at `offset`, byte for byte;
a spelled one is not there in the input, and all its bytes stand in for the one at `offset`. -/
inductive Glyph where
  | kept (char : Char) (offset : Nat)
  | spelled (char : Char) (offset : Nat)
  deriving DecidableEq, Repr

namespace Glyph

def char : Glyph → Char
  | kept c _ => c
  | spelled c _ => c

def origins : Glyph → List Nat
  | kept c o => List.range' o c.utf8Size
  | spelled c o => List.replicate c.utf8Size o

theorem length_origins (g : Glyph) : g.origins.length = g.char.utf8Size := by
  cases g <;> simp [origins, char]

end Glyph

abbrev Segment := List Glyph

namespace Segment

def text (s : Segment) : Text := s.map Glyph.char

def origins (s : Segment) : List Nat := s.flatMap Glyph.origins

def copy (offset : Nat) : Text → Segment
  | [] => []
  | c :: t => .kept c offset :: copy (offset + c.utf8Size) t

def spell (offset : Nat) (t : Text) : Segment := t.map (.spelled · offset)

theorem length_origins (s : Segment) : s.origins.length = s.text.size := by
  induction s with
  | nil => rfl
  | cons g s ih =>
    have ho : origins (g :: s) = g.origins ++ origins s := rfl
    have ht : text (g :: s) = g.char :: text s := rfl
    rw [ho, ht, List.length_append, ih, g.length_origins, Text.size_cons]

theorem text_copy (offset : Nat) (t : Text) : (copy offset t).text = t := by
  induction t generalizing offset with
  | nil => rfl
  | cons c t ih => simpa [copy, text, Glyph.char] using ih (offset + c.utf8Size)

theorem text_spell (offset : Nat) (t : Text) : (spell offset t).text = t := by
  simp [spell, text, Function.comp_def, Glyph.char]

theorem text_append (a b : Segment) : (a ++ b).text = a.text ++ b.text := List.map_append

theorem origins_append (a b : Segment) : (a ++ b).origins = a.origins ++ b.origins :=
  List.flatMap_append

end Segment

end TemplateSqueeze.Template
