import Mathlib.Data.Char
import Mathlib.Data.List.Lex
import Mathlib.Data.List.Nodup
import TemplateSqueeze.Command.Directory

namespace TemplateSqueeze

theorem Text.bytes_injective : Function.Injective Text.bytes := by
  intro t u h
  rw [← String.ofList_inj, ← String.toByteArray_inj]
  exact congrArg List.toByteArray h

namespace Path

variable {name stem extension : Text}

theorem splitAtLastDot?_append (h : '.' ∉ extension) :
    splitAtLastDot? (stem ++ '.' :: extension) = some (stem, extension) := by
  have hnot : ∀ c ∈ extension.reverse, decide (c ≠ '.') = true := by
    intro c hc
    rw [decide_eq_true_eq]
    rintro rfl
    exact h (List.mem_reverse.1 hc)
  have htail : ((stem ++ '.' :: extension).reverse.takeWhile (· ≠ '.')).reverse = extension := by
    rw [List.reverse_append, List.reverse_cons, List.append_assoc,
      List.takeWhile_append_of_pos hnot]
    simp
  rw [splitAtLastDot?, if_pos (by simp)]
  simp only [htail]
  rw [List.length_append, List.length_cons, ← Nat.add_assoc, Nat.add_right_comm,
    Nat.add_sub_cancel_right, Nat.add_sub_cancel_right, List.take_left]

theorem splitAtLastDot?_eq_some : splitAtLastDot? name = some (stem, extension) ↔
    name = stem ++ '.' :: extension ∧ '.' ∉ extension := by
  constructor
  · intro h
    have hdot : '.' ∈ name := by
      by_contra hnone
      rw [splitAtLastDot?, if_neg hnone] at h
      cases h
    obtain ⟨back, front, hsplit, hback⟩ :=
      List.eq_append_cons_of_mem (List.mem_reverse.2 hdot)
    obtain rfl : name = front.reverse ++ '.' :: back.reverse := by
      rw [← List.reverse_reverse name, hsplit]
      simp
    have hnot : '.' ∉ back.reverse := mt List.mem_reverse.1 hback
    rw [splitAtLastDot?_append hnot] at h
    cases h
    exact ⟨rfl, hnot⟩
  · rintro ⟨rfl, h⟩
    exact splitAtLastDot?_append h

structure IsName (name : Text) : Prop where
  ne_nil : name ≠ []
  noSlash : '/' ∉ name
  ne_dot : name ≠ ['.']
  ne_dots : name ≠ ['.', '.']

instance (name : Text) : Decidable (IsName name) :=
  decidable_of_iff (name ≠ [] ∧ '/' ∉ name ∧ name ≠ ['.'] ∧ name ≠ ['.', '.'])
    ⟨fun ⟨h₁, h₂, h₃, h₄⟩ ↦ ⟨h₁, h₂, h₃, h₄⟩, fun h ↦ ⟨h.1, h.2, h.3, h.4⟩⟩

theorem join_injective (directory : Text) : Function.Injective (join directory) := by
  intro a b h
  unfold join at h
  split at h
  · exact List.append_cancel_left h
  · exact (List.cons.inj (List.append_cancel_left h)).2

end Path

namespace Command.Fixture

variable {name stem extension : Text} {names names' : List Text} {f g : Fixture}

theorem isMarked_iff : isMarked name ↔ outMark <:+: name := by
  induction name with
  | nil => decide
  | cons c name ih => rw [isMarked, Bool.or_eq_true, ih, List.isPrefixOf_iff_prefix,
      List.infix_cons_iff]

theorem ofName?_eq_some : ofName? name = some f ↔ ¬ outMark <:+: name ∧
    ∃ stem extension language, name = stem ++ '.' :: extension ∧ '.' ∉ extension ∧
      Language.ofExtension? (String.ofList extension) = some language ∧
      f = ⟨name, language, stem ++ outMark ++ extension,
        stem ++ outMark ++ extension ++ ".map".toList⟩ := by
  rw [← isMarked_iff, ofName?]
  split
  · next hmarked => simp [hmarked]
  · next hmarked =>
    simp only [hmarked, Bool.false_eq_true, not_false_eq_true, true_and, Option.bind_eq_bind,
      Option.bind_eq_some_iff, Option.pure_def, Option.some.injEq, Prod.exists,
      Path.splitAtLastDot?_eq_some]
    constructor
    · rintro ⟨stem, extension, ⟨hname, hdot⟩, language, hlanguage, rfl⟩
      exact ⟨stem, extension, language, hname, hdot, hlanguage, rfl⟩
    · rintro ⟨stem, extension, language, hname, hdot, hlanguage, rfl⟩
      exact ⟨stem, extension, ⟨hname, hdot⟩, language, hlanguage, rfl⟩

def Named (f : Fixture) : Prop := ofName? f.name = some f

theorem name_of_ofName? (h : ofName? name = some f) : f.name = name := by
  obtain ⟨-, -, -, -, -, -, -, rfl⟩ := ofName?_eq_some.1 h
  rfl

theorem Named.eq (hf : f.Named) (hg : g.Named) (h : f.name = g.name) : f = g := by
  rw [Named, h, hg] at hf
  exact (Option.some.inj hf).symm

theorem Named.not_marked (h : f.Named) : ¬ outMark <:+: f.name := (ofName?_eq_some.1 h).1

theorem Named.exists_parts (h : f.Named) : ∃ stem extension,
    f.name = stem ++ '.' :: extension ∧ '.' ∉ extension ∧
      Language.ofExtension? (String.ofList extension) = some f.language ∧
      f.outName = stem ++ outMark ++ extension ∧ f.mapName = f.outName ++ ".map".toList := by
  obtain ⟨-, stem, extension, language, hname, hdot, hlanguage, hf⟩ := ofName?_eq_some.1 h
  have hlanguage' := congrArg Fixture.language hf
  have hout := congrArg Fixture.outName hf
  have hmap := congrArg Fixture.mapName hf
  refine ⟨stem, extension, hname, hdot, by rw [hlanguage, hlanguage'], hout, ?_⟩
  rw [hmap, hout]

def outputs (f : Fixture) : List Text := [f.outName, f.mapName]

@[simp] theorem mem_outputs : name ∈ f.outputs ↔ name = f.outName ∨ name = f.mapName := by
  simp [outputs]

theorem Named.exists_output (h : f.Named) (hn : name ∈ f.outputs) : ∃ stem extension rest,
    f.name = stem ++ '.' :: extension ∧ name = stem ++ outMark ++ (extension ++ rest) ∧
      '/' ∉ rest := by
  obtain ⟨stem, extension, hname, -, -, hout, hmap⟩ := h.exists_parts
  rw [mem_outputs] at hn
  rcases hn with rfl | rfl
  · exact ⟨stem, extension, [], hname, by rw [hout, List.append_nil], by simp⟩
  · exact ⟨stem, extension, ".map".toList, hname, by rw [hmap, hout, List.append_assoc],
      by decide⟩

theorem Named.marked (h : f.Named) (hn : name ∈ f.outputs) : outMark <:+: name := by
  obtain ⟨stem, extension, rest, -, rfl, -⟩ := h.exists_output hn
  exact List.infix_append stem outMark _

theorem Named.isName (h : f.Named) (hname : Path.IsName f.name) (hn : name ∈ f.outputs) :
    Path.IsName name := by
  obtain ⟨stem, extension, rest, hsplit, rfl, hrest⟩ := h.exists_output hn
  have hslash := hname.noSlash
  simp only [hsplit, List.mem_append, List.mem_cons, not_or] at hslash
  -- With the mark in it the name is longer than those that lead elsewhere.
  have hlong (short : Text) (hshort : short.length < 5) :
      stem ++ outMark ++ (extension ++ rest) ≠ short := by
    rintro rfl
    simp only [outMark, List.length_append, String.length_toList] at hshort
    have hmark : ".out.".length = 5 := by decide
    omega
  refine ⟨hlong [] (by decide), ?_, hlong ['.'] (by decide), hlong ['.', '.'] (by decide)⟩
  simp only [List.mem_append, not_or]
  exact ⟨⟨hslash.1, by decide⟩, hslash.2.2, hrest⟩

theorem append_outMark_append : stem ++ outMark ++ extension =
    (stem ++ ".out".toList) ++ '.' :: extension := by
  simp [outMark]

theorem Named.eq_of_outName (hf : f.Named) (hg : g.Named) (h : f.outName = g.outName) :
    f = g := by
  obtain ⟨stem, extension, hname, hdot, -, hout, -⟩ := hf.exists_parts
  obtain ⟨stem', extension', hname', hdot', -, hout', -⟩ := hg.exists_parts
  have hcut : _ = some (stem ++ ".out".toList, _) := Path.splitAtLastDot?_append hdot
  rw [← append_outMark_append, ← hout, h, hout', append_outMark_append,
    Path.splitAtLastDot?_append hdot'] at hcut
  simp only [Option.some.injEq, Prod.mk.injEq, List.append_cancel_right_eq] at hcut
  apply hf.eq hg
  rw [hname, hname', hcut.1, hcut.2]

/-- No language has the extension of a map. -/
theorem Named.outName_ne_mapName (hf : f.Named) (hg : g.Named) : f.outName ≠ g.mapName := by
  obtain ⟨stem, extension, -, hdot, hlanguage, hout, -⟩ := hf.exists_parts
  obtain ⟨-, -, -, -, -, -, hmap⟩ := hg.exists_parts
  intro h
  have hcut : _ = some (g.outName, "map".toList) := Path.splitAtLastDot?_append (by decide)
  have heq : g.outName ++ '.' :: "map".toList = g.mapName := by
    rw [hmap]
    rfl
  rw [heq, ← h, hout, append_outMark_append, Path.splitAtLastDot?_append hdot] at hcut
  simp only [Option.some.injEq, Prod.mk.injEq] at hcut
  rw [hcut.2] at hlanguage
  cases hlanguage

theorem Named.eq_of_mem_outputs (hf : f.Named) (hg : g.Named) (hn : name ∈ f.outputs)
    (hn' : name ∈ g.outputs) : f = g := by
  rw [mem_outputs] at hn hn'
  rcases hn with rfl | rfl
  · rcases hn' with h | h
    · exact hf.eq_of_outName hg h
    · exact absurd h (hf.outName_ne_mapName hg)
  · rcases hn' with h | h
    · exact absurd h.symm (hg.outName_ne_mapName hf)
    · obtain ⟨-, -, -, -, -, -, hmap⟩ := hf.exists_parts
      obtain ⟨-, -, -, -, -, -, hmap'⟩ := hg.exists_parts
      rw [hmap, hmap'] at h
      exact hf.eq_of_outName hg (List.append_cancel_right h)

theorem Named.nodup_outputs (h : f.Named) : f.outputs.Nodup := by
  simp [outputs, h.outName_ne_mapName h]

theorem mem_ofNames : f ∈ ofNames names ↔ f.Named ∧ f.name ∈ names := by
  rw [ofNames, List.mem_mergeSort, List.mem_filterMap]
  constructor
  · rintro ⟨name, hmem, h⟩
    obtain rfl := name_of_ofName? h
    exact ⟨h, hmem⟩
  · rintro ⟨h, hmem⟩
    exact ⟨f.name, hmem, h⟩

theorem nodup_filterMap (h : names.Nodup) : (names.filterMap ofName?).Nodup := by
  refine List.Nodup.filterMap ?_ h
  intro a b f ha hb
  exact (name_of_ofName? ha).symm.trans (name_of_ofName? hb)

theorem nodup_ofNames (h : names.Nodup) : (ofNames names).Nodup :=
  (List.mergeSort_perm _ _).nodup_iff.2 (nodup_filterMap h)

theorem nodup_flatMap_outputs (h : names.Nodup) : ((ofNames names).flatMap outputs).Nodup := by
  refine List.nodup_flatMap.2 ⟨fun f hf ↦ (mem_ofNames.1 hf).1.nodup_outputs, ?_⟩
  refine (nodup_ofNames h).imp_of_mem fun {f g} hf hg hne name hn hn' ↦ ?_
  exact hne ((mem_ofNames.1 hf).1.eq_of_mem_outputs (mem_ofNames.1 hg).1 hn hn')

theorem upTo_iff (s t : Text) : (!t.lex s fun c d ↦ c.toNat < d.toNat) ↔ s ≤ t := by
  rw [Bool.not_eq_true', ← Bool.not_eq_true, ← not_lt]
  exact not_congr List.lex_eq_true_iff_lt

theorem pairwise_ofNames (names : List Text) :
    (ofNames names).Pairwise fun f g ↦ f.name ≤ g.name := by
  simp only [← upTo_iff]
  apply List.pairwise_mergeSort
  · intro f g h hfg hgh
    rw [upTo_iff] at hfg hgh ⊢
    exact le_trans hfg hgh
  · intro f g
    rw [Bool.or_eq_true, upTo_iff, upTo_iff]
    exact le_total f.name g.name

theorem ofNames_eq (h : names.Nodup) (h' : names'.Nodup)
    (hsame : ∀ n, ¬ outMark <:+: n → (n ∈ names ↔ n ∈ names')) :
    ofNames names = ofNames names' := by
  have hperm : (ofNames names).Perm (ofNames names') := by
    rw [List.perm_ext_iff_of_nodup (nodup_ofNames h) (nodup_ofNames h')]
    intro f
    rw [mem_ofNames, mem_ofNames]
    exact and_congr_right fun hnamed ↦ hsame f.name hnamed.not_marked
  refine hperm.eq_of_pairwise ?_ (pairwise_ofNames names) (pairwise_ofNames names')
  intro f g hf hg hfg hgf
  exact (mem_ofNames.1 hf).1.eq (mem_ofNames.1 hg).1 (le_antisymm hfg hgf)

end Command.Fixture

end TemplateSqueeze
