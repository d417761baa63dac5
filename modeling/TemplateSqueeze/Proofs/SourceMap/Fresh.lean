import TemplateSqueeze.Proofs.SourceMap.Stretch

namespace TemplateSqueeze.SourceMap

open Text Template Segment

variable {source name : Text} {s : Segment} {a b o n k : Nat} {t : Token}

theorem Change.pairwise_jointOrigins (c : Change) :
    c.jointOrigins.Pairwise fun x y ↦ x.1 < y.1 := by
  refine List.pairwise_filterMap.2 (pairwise_joints.imp fun hij x hx y hy ↦ ?_)
  obtain ⟨-, -, rfl⟩ := Option.map_eq_some_iff.1 hx
  obtain ⟨-, -, rfl⟩ := Option.map_eq_some_iff.1 hy
  exact hij

namespace Stretch

theorem joint_eq (h : Stretch source s a b o n) (hs : Faithful source 0 source.size s)
    (hk : k ∈ joints (LineTable.ofText s.text).startsLine s.origins)
    (hle : ¬ ((LineTable.ofText s.text).positionOf b).precedes
      ((LineTable.ofText s.text).positionOf k))
    (hge : ¬ ((LineTable.ofText s.text).positionOf k).precedes
      ((LineTable.ofText s.text).positionOf a)) : k = a := by
  have hbk := isBoundary_of_mem_joints hs hk
  rcases Nat.lt_trichotomy k a with hlt | heq | hgt
  · exact absurd (LineTable.positionOf_precedes hbk h.boundaries.1 hlt (.inr h.contents.1)) hge
  · exact heq
  · rcases Nat.lt_or_ge b k with hbk' | hbk'
    · exact absurd (LineTable.positionOf_precedes h.boundaries.2 hbk hbk' (.inl h.contents.2)) hle
    · exact absurd hk (h.noJoint k hgt hbk')

theorem positionOf_le (h : Stretch source s a b o n) :
    ¬ ((LineTable.ofText s.text).positionOf b).precedes
      ((LineTable.ofText s.text).positionOf a) :=
  LineTable.positionOf_mono h.boundaries.1 h.boundaries.2 h.le

theorem mem_jointOrigins (h : Stretch source s a b o n) :
    (a, o) ∈ (Change.ofSegment source s).jointOrigins := by
  have ho := h.origins 0 h.le
  exact Change.mem_jointOrigins.2 ⟨h.joint, ho⟩

theorem eq_of_mem_jointOrigins {p : Nat} (h : Stretch source s a b o n)
    (hs : Faithful source 0 source.size s)
    (hk : (k, p) ∈ (Change.ofSegment source s).jointOrigins)
    (hle : ¬ ((LineTable.ofText s.text).positionOf b).precedes
      ((LineTable.ofText s.text).positionOf k))
    (hge : ¬ ((LineTable.ofText s.text).positionOf k).precedes
      ((LineTable.ofText s.text).positionOf a)) : k = a ∧ p = o := by
  obtain ⟨hj, hp⟩ := Change.mem_jointOrigins.1 hk
  obtain rfl := h.joint_eq hs hj hle hge
  have ho := (Change.mem_jointOrigins.1 h.mem_jointOrigins).2
  exact ⟨rfl, Option.some.inj (hp.symm.trans ho)⟩

end Stretch

theorem Change.mem_freshTokens {c : Change} : t ∈ c.freshTokens name ↔ ∃ k o,
    (k, o) ∈ c.jointOrigins ∧ t = ⟨c.output.positionOf k,
      ⟨(c.input.positionOf o).line, (c.input.positionOf o).column, some name, none⟩, false⟩ := by
  simp only [freshTokens, List.mem_map, Prod.exists]
  exact exists_congr fun k ↦ exists_congr fun o ↦ and_congr_right fun _ ↦ eq_comm

theorem sorted_freshTokens (h : Faithful source 0 source.size s) :
    Sorted ((Change.ofSegment source s).freshTokens name) := by
  refine List.pairwise_map.2 ((Change.pairwise_jointOrigins _).imp_of_mem fun hx hy hlt ↦ ?_)
  have hx := isBoundary_of_mem_joints h (Change.mem_jointOrigins.1 hx).1
  have hy := isBoundary_of_mem_joints h (Change.mem_jointOrigins.1 hy).1
  exact LineTable.positionOf_mono hx hy (Nat.le_of_lt hlt)

theorem governs_freshTokens (hs : Faithful source 0 source.size s)
    (h : Stretch source s a b o n)
    (ht : Governs ((Change.ofSegment source s).freshTokens name)
      ((LineTable.ofText s.text).positionOf b) t) :
    t = ⟨(LineTable.ofText s.text).positionOf a,
      ⟨((LineTable.ofText source).positionOf o).line,
        ((LineTable.ofText source).positionOf o).column, some name, none⟩, false⟩ := by
  obtain ⟨k, o', hk, rfl⟩ := Change.mem_freshTokens.1 ht.mem
  have ha := ht.closest _ (Change.mem_freshTokens.2 ⟨a, o, h.mem_jointOrigins, rfl⟩) h.positionOf_le
  obtain ⟨rfl, rfl⟩ := h.eq_of_mem_jointOrigins hs hk ht.le ha
  rfl

theorem exists_lookup?_freshTokens (name : Text) (hs : Faithful source 0 source.size s)
    (h : Stretch source s a b o n) :
    ∃ t, lookup? ((Change.ofSegment source s).freshTokens name)
        ((LineTable.ofText s.text).positionOf b) = some t ∧
      Governs ((Change.ofSegment source s).freshTokens name)
        ((LineTable.ofText s.text).positionOf b) t := by
  obtain ⟨t, ht⟩ := exists_lookup? (sorted_freshTokens hs)
    (Change.mem_freshTokens.2 ⟨a, o, h.mem_jointOrigins, rfl⟩) h.positionOf_le
  exact ⟨t, ht, governs_of_lookup? (sorted_freshTokens hs) ht⟩

end TemplateSqueeze.SourceMap
