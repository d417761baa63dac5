import TemplateSqueeze.Proofs.SourceMap.Carried
import TemplateSqueeze.Proofs.SourceMap.Fresh
import TemplateSqueeze.Proofs.SourceMap.RoundTrip

namespace TemplateSqueeze.SourceMap

open Text Template Segment

variable {source code : Text} {s : Segment} {tokens : List Token} {limit : Nat}

/-- No more tokens than bytes, and no number of a place above the limit. -/
structure Bounded (limit : Nat) (code : Text) (tokens : List Token) : Prop where
  length : tokens.length ≤ code.size
  placed : ∀ t ∈ tokens, t.place = .nowhere ∨
    t.place.source.isSome ∧ t.place.line ≤ limit ∧ t.place.column ≤ limit

theorem Bounded.eraseReps (h : Bounded limit code tokens) :
    Bounded limit code tokens.eraseReps where
  length := Nat.le_trans (eraseReps_sublist tokens).length_le h.length
  placed t ht := h.placed t (mem_eraseReps.1 ht)

theorem Change.lt_of_mem_jointOrigins {k o : Nat} {input : Text}
    (hk : (k, o) ∈ (Change.ofSegment input s).jointOrigins) : k < s.text.size := by
  have hlt := (mem_joints.1 (Change.mem_jointOrigins.1 hk).1).1
  change k < s.origins.length at hlt
  rwa [length_origins] at hlt

theorem length_le_of_nodup {α : Type} {xs : List α} {k : Nat} (f : Nat → α) (hd : xs.Nodup)
    (h : ∀ x ∈ xs, ∃ n < k, f n = x) : xs.length ≤ k := by
  have hsubset : xs ⊆ (List.range k).map f := by
    intro x hx
    obtain ⟨n, hn, rfl⟩ := h x hx
    exact List.mem_map_of_mem (List.mem_range.2 hn)
  have hlen := (hd.subperm hsubset).length_le
  rwa [List.length_map, List.length_range] at hlen

theorem bounded_freshTokens (source fileName : Text) (s : Segment) :
    Bounded source.size s.text ((Change.ofSegment source s).freshTokens fileName) where
  length := by
    have hdistinct : ((Change.ofSegment source s).jointOrigins.map Prod.fst).Nodup :=
      List.pairwise_map.2 ((Change.pairwise_jointOrigins _).imp fun h ↦ Nat.ne_of_lt h)
    have hlen := length_le_of_nodup id hdistinct fun k hk ↦ by
      obtain ⟨⟨k, o⟩, hjoint, rfl⟩ := List.mem_map.1 hk
      exact ⟨k, Change.lt_of_mem_jointOrigins hjoint, rfl⟩
    rw [List.length_map] at hlen
    rwa [Change.freshTokens, List.length_map]
  placed t ht := by
    obtain ⟨k, o, -, rfl⟩ := Change.mem_freshTokens.1 ht
    exact .inr ⟨rfl, LineTable.positionOf_le_size source o⟩

theorem Bounded.carry (h : Bounded limit code tokens) (hs : Sorted tokens)
    (hr : ∀ t ∈ tokens, t.ranged = false) (s : Segment) :
    Bounded limit s.text (settled ((Change.ofSegment code s).candidates tokens)) where
  length := by
    have hdistinct : ((settled ((Change.ofSegment code s).candidates tokens)).map
        Token.position).Nodup := by
      refine List.pairwise_map.2 ((pairwise_settled _).imp fun {t u} h he ↦ ?_)
      rw [he] at h
      exact Position.precedes_irrefl _ h
    have hlen := length_le_of_nodup (LineTable.ofText s.text).positionOf hdistinct fun p hp ↦ by
      obtain ⟨t, ht, rfl⟩ := List.mem_map.1 hp
      rcases Change.mem_candidates.1 (mem_of_mem_settled ht) with ⟨u, -, hm⟩ | ⟨k, o, hk, rfl⟩
      · obtain ⟨m, k, -, -, hk, -, rfl⟩ := Change.moved?_eq_some.1 hm
        have hlt := (List.getElem?_eq_some_iff.1 hk).1
        rw [length_origins] at hlt
        exact ⟨k, hlt, rfl⟩
      · exact ⟨k, Change.lt_of_mem_jointOrigins hk, rfl⟩
    rwa [List.length_map] at hlen
  placed t ht := by
    rcases Change.mem_candidates.1 (mem_of_mem_settled ht) with ⟨u, hu, hm⟩ | ⟨k, o, -, rfl⟩
    · obtain ⟨m, k, -, -, -, -, rfl⟩ := Change.moved?_eq_some.1 hm
      exact h.placed u hu
    · simp only [Change.lookedUp]
      split
      · next u hu =>
        have hmem := (governs_of_lookup? hs hu).mem
        rw [Token.placeAt_of_not_ranged (hr u hmem)]
        exact h.placed u hmem
      · exact .inl rfl

end TemplateSqueeze.SourceMap
