import Mathlib
import TemplateSqueeze.Proofs.Text.Position

namespace TemplateSqueeze

namespace Text

/-- What shows in a line of a text: all but the line feed that ends it, and but for one carriage
return before that or at the end of the text. -/
structure IsContent (t before content after : Text) : Prop where
  eq : t = before ++ content ++ after
  starts : before = [] ∨ ∃ b, before = b ++ ['\n']
  noFeed : '\n' ∉ content
  ends : (after = [] ∨ ∃ r, after = '\n' :: r) ∧ content.getLast? ≠ some '\r' ∨
    ∃ r, after = '\r' :: r ∧ (r = [] ∨ ∃ s, r = '\n' :: s)

/-- An offset where a caret can stand: at either end of what shows in the line, or between two
characters of it. -/
def IsCaret (t : Text) (line offset : Nat) : Prop :=
  ∃ before a b after, IsContent t before (a ++ b) after ∧ before.count '\n' = line ∧
    before.size + a.size = offset

end Text

namespace Line

open Text

theorem withoutReturn_concat (t : Text) : withoutReturn (t ++ ['\r']) = t := by
  rw [withoutReturn_append (List.cons_ne_nil _ _)]
  exact List.append_nil t

theorem withoutReturn_of_getLast? {t : Text} (h : t.getLast? ≠ some '\r') :
    withoutReturn t = t := by
  obtain ⟨r, hr, rfl | rfl⟩ := exists_eq_withoutReturn_append t
  · rw [List.append_nil] at hr
    exact hr.symm
  · rw [hr] at h
    simp at h

end Line

namespace Text

variable {t p l c q : Text} {line : Nat}

theorem IsLine.isContent (h : IsLine t p l q) : ∃ r, l = Line.withoutReturn l ++ r ∧
    IsContent t p (Line.withoutReturn l) (r ++ q) := by
  obtain ⟨r, hr, hr'⟩ := Line.exists_eq_withoutReturn_append l
  refine ⟨r, hr, ?_, h.starts, ?_, ?_⟩
  · rw [← List.append_assoc, List.append_assoc p, ← hr]
    exact h.eq
  · intro hfeed
    apply h.noFeed
    rw [hr]
    exact List.mem_append_left r hfeed
  · rcases hr' with rfl | rfl
    · refine .inl ⟨h.ends, fun hlast ↦ ?_⟩
      obtain ⟨s, hs⟩ := List.getLast?_eq_some_iff.1 hlast
      rw [List.append_nil, hs] at hr
      rw [hr, Line.withoutReturn_concat] at hs
      simp at hs
    · exact .inr ⟨q, rfl, h.ends⟩

theorem exists_isContent (h : line ≤ t.count '\n') :
    ∃ p c q, IsContent t p c q ∧ p.count '\n' = line := by
  obtain ⟨p, l, q, hl, hp⟩ := exists_isLine_of_le_count h
  obtain ⟨r, -, hc⟩ := hl.isContent
  exact ⟨p, _, r ++ q, hc, hp⟩

theorem IsContent.exists_isLine (h : IsContent t p c q) :
    ∃ l r, IsLine t p l r ∧ Line.withoutReturn l = c := by
  rcases h.ends with ⟨hq, hlast⟩ | ⟨r, rfl, hr⟩
  · exact ⟨c, q, ⟨h.eq, h.starts, h.noFeed, hq⟩, Line.withoutReturn_of_getLast? hlast⟩
  · refine ⟨c ++ ['\r'], r, ⟨?_, h.starts, ?_, hr⟩, Line.withoutReturn_concat c⟩
    · rw [h.eq]
      simp
    · simpa using h.noFeed

end Text

namespace LineTable

open Text

variable {t p c q a b : Text} {line column m n : Nat}

theorem exists_line (h : IsContent t p c q) : ∃ l, (ofText t).lines[p.count '\n']? = some l ∧
    l.start = p.size ∧ l.content = c := by
  obtain ⟨l, r, hl, rfl⟩ := h.exists_isLine
  exact ⟨_, getElem?_lines hl, rfl, rfl⟩

theorem positionOf_caret (h : IsContent t p (a ++ b) q) :
    (ofText t).positionOf (p.size + a.size) = ⟨p.count '\n', units a⟩ := by
  obtain ⟨l, r, hl, hcontent⟩ := h.exists_isLine
  have hsize : p.size + a.size ≤ p.size + l.size := by
    obtain ⟨e, he, -⟩ := Line.exists_eq_withoutReturn_append l
    rw [he, hcontent, size_append, size_append]
    omega
  have hcolumn := Line.columnAt_eq (l := .ofText p.size l) hcontent
  rw [positionOf, lineAt_eq hl (Nat.le_add_right _ _) hsize]
  simp only [getElem?_lines hl]
  exact congrArg _ hcolumn

theorem offsetOf?_eq (h : IsContent t p c q) (column : Nat) :
    (ofText t).offsetOf? ⟨p.count '\n', column⟩ =
      some (p.size + size (fitting unitsOf column c)) := by
  obtain ⟨l, hl, hstart, rfl⟩ := exists_line h
  rw [offsetOf?, hl, Option.map_some, Line.offsetAt_eq, hstart]

theorem units_le_iff (column : Nat) : units a ≤ column ↔
    a.size ≤ size (fitting unitsOf column (a ++ b)) := by
  obtain ⟨r, hr, hle, hlt⟩ := fitting_spec unitsOf column (a ++ b)
  generalize fitting unitsOf column (a ++ b) = f at *
  rw [weigh_unitsOf] at hle hlt
  constructor
  · intro ha
    -- What fits would end inside the beginning, before a character that still fits.
    by_contra hf
    obtain ⟨d, rfl, hd⟩ := exists_between hr.symm (by omega)
    cases d with
    | nil => simp at hf
    | cons c d =>
      have hwide := hlt c (d ++ b) hd
      rw [units_append, units] at ha
      omega
  · intro hf
    obtain ⟨d, rfl, -⟩ := exists_between hr hf
    rw [units_append] at hle
    omega

theorem offsetOf?_eq_none_iff :
    (ofText t).offsetOf? ⟨line, column⟩ = none ↔ t.count '\n' < line := by
  rw [offsetOf?, Option.map_eq_none_iff, Array.getElem?_eq_none_iff]
  simp only [ofText, List.size_toArray, Line.length_layout, length_splitLines]
  exact Nat.succ_le_iff

theorem column_le_iff {i : Nat} (hi : (ofText t).offsetOf? ⟨line, column⟩ = some m)
    (hb : IsCaret t line i) : ((ofText t).positionOf i).column ≤ column ↔ i ≤ m := by
  obtain ⟨p, a, b, q, h, rfl, rfl⟩ := hb
  rw [offsetOf?_eq h] at hi
  cases hi
  rw [positionOf_caret h, Nat.add_le_add_iff_left]
  exact units_le_iff column

theorem isCaret_offsetOf? (h : (ofText t).offsetOf? ⟨line, column⟩ = some m) :
    IsCaret t line m := by
  have hline : line ≤ t.count '\n' := by
    by_contra hlt
    rw [offsetOf?_eq_none_iff.2 (by omega)] at h
    cases h
  obtain ⟨p, c, q, hc, rfl⟩ := exists_isContent hline
  rw [offsetOf?_eq hc] at h
  cases h
  obtain ⟨r, hr, -⟩ := fitting_spec unitsOf column c
  refine ⟨p, _, r, q, ?_, rfl, rfl⟩
  rw [← hr]
  exact hc

theorem offsetOf?_positionOf_caret (h : IsCaret t line n) :
    ((ofText t).positionOf n).line = line ∧
      (ofText t).offsetOf? ((ofText t).positionOf n) = some n := by
  obtain ⟨p, a, b, q, hc, rfl, rfl⟩ := h
  rw [positionOf_caret hc, offsetOf?_eq hc, ← weigh_unitsOf, fitting_weigh_append unitsOf_pos]
  exact ⟨rfl, rfl⟩

/-- A line that does not exist has no offsets. One that exists sends every column to its last caret
that is no further to the right, and each of its carets is where its own position leads. -/
theorem offsetOf?_adjoint (t : Text) (line column : Nat) :
    ((ofText t).offsetOf? ⟨line, column⟩ = none ↔ t.count '\n' < line) ∧
    (∀ m, (ofText t).offsetOf? ⟨line, column⟩ = some m →
      IsGreatest {b | IsCaret t line b ∧ ((ofText t).positionOf b).column ≤ column} m ∧
      ∀ b, IsCaret t line b → (((ofText t).positionOf b).column ≤ column ↔ b ≤ m)) ∧
    ∀ b, IsCaret t line b → ((ofText t).positionOf b).line = line ∧
      (ofText t).offsetOf? ((ofText t).positionOf b) = some b := by
  refine ⟨offsetOf?_eq_none_iff, ?_, fun b hb ↦ offsetOf?_positionOf_caret hb⟩
  intro m hm
  have hcaret := isCaret_offsetOf? hm
  refine ⟨⟨⟨hcaret, ?_⟩, ?_⟩, fun b hb ↦ column_le_iff hm hb⟩
  · exact (column_le_iff hm hcaret).2 (Nat.le_refl m)
  · intro b hb
    exact (column_le_iff hm hb.1).1 hb.2

theorem offsetOf?_adjoint_pair :
    IsGreatest {b | IsCaret "ab\r\n😀c\r\n".toList 1 b ∧
      ((ofText "ab\r\n😀c\r\n".toList).positionOf b).column ≤ 1} 4 ∧
    IsGreatest {b | IsCaret "ab\r\n😀c\r\n".toList 1 b ∧
      ((ofText "ab\r\n😀c\r\n".toList).positionOf b).column ≤ 7} 9 ∧
    (ofText "ab\r\n😀c\r\n".toList).offsetOf?
      ((ofText "ab\r\n😀c\r\n".toList).positionOf 8) = some 8 := by
  have hc : IsCaret "ab\r\n😀c\r\n".toList 1 8 := by
    refine ⟨"ab\r\n".toList, "😀".toList, "c".toList, "\r\n".toList, ?_, by decide, by decide⟩
    refine ⟨by decide, .inr ⟨"ab\r".toList, by decide⟩, by decide, .inr ⟨"\n".toList, ?_⟩⟩
    exact ⟨by decide, .inr ⟨[], by decide⟩⟩
  refine ⟨?_, ?_, ?_⟩
  · exact ((offsetOf?_adjoint _ 1 1).2.1 4 (by cbv)).1
  · exact ((offsetOf?_adjoint _ 1 7).2.1 9 (by cbv)).1
  · exact ((offsetOf?_adjoint _ 1 0).2.2 8 hc).2

end LineTable

end TemplateSqueeze
