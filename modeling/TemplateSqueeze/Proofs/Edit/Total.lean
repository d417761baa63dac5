import Mathlib
import TemplateSqueeze.Proofs.Edit.Splice

namespace TemplateSqueeze

open Text Template Segment

variable {marker source : Text} {tree n t : Node} {l : Literal} {a closeAt : Nat} {c : Cursor}

namespace Template

def Segment.Bounded (source : Text) (lo hi : Nat) (s : Segment) : Prop :=
  lo ≤ hi ∧ ∀ x ∈ s.origins, x < source.size

theorem Segment.Bounded.accounting (source : Text) : Accounting source (Bounded source) where
  le h := h.1
  lt_size h := h.2
  nil lo := ⟨Nat.le_refl lo, nofun⟩
  copy h := by
    refine ⟨Nat.le.intro (size_of_slice? h), fun x hx ↦ ?_⟩
    obtain ⟨-, hlt, hsize⟩ := bounds_of_mem_origins_copy h hx
    exact Nat.lt_of_lt_of_le hlt hsize
  respell {lo hi next unit t} h ht := by
    have hsize := size_of_slice? h
    have hlt : lo < source.size := by
      rcases charAt?_of_respelling? h ht with ⟨hc, -⟩ | ⟨hc, -⟩
      · exact Nat.lt_of_lt_of_le (Nat.lt_add_of_pos_right (by decide)) (charAt?_lt_size hc)
      · exact Nat.lt_of_lt_of_le (Nat.lt_add_of_pos_right (by decide)) (charAt?_lt_size hc)
    refine ⟨by omega, fun x hx ↦ ?_⟩
    obtain ⟨g, hg, hx⟩ := List.mem_flatMap.1 hx
    obtain ⟨d, -, rfl⟩ := List.mem_map.1 hg
    rw [List.eq_of_mem_replicate hx]
    exact hlt
  remove h _ _ := ⟨h, nofun⟩
  append h h' := by
    refine ⟨Nat.le_trans h.1 h'.1, fun x hx ↦ ?_⟩
    rw [origins_append, List.mem_append] at hx
    rcases hx with hx | hx
    · exact h.2 x hx
    · exact h'.2 x hx

theorem bounded_replacement? (hw : n.Ranged source) (h : replacement? marker source n = some l) :
    ∃ s, l.toSegment? source = some s ∧ Bounded source n.start n.stop s ∧
      Bounded source n.start n.stop (.spelled ';' n.start :: s) := by
  obtain ⟨t, s, -, hl, -, hle, hle', hs, hbounded⟩ :=
    exists_segment_of_replacement? (Bounded.accounting source).composing hw h
  obtain ⟨hstart, -, hlt, hopen, -⟩ := Literal.ofNode?_eq_some hl
  have hsize := charAt?_lt_size hopen
  have hpos := mark.utf8Size_pos
  refine ⟨s, hs, ⟨by omega, hbounded.2⟩, by omega, fun x hx ↦ ?_⟩
  rw [origins_cons, List.mem_append] at hx
  rcases hx with hx | hx
  · rw [List.eq_of_mem_replicate hx]
    omega
  · exact hbounded.2 x hx

theorem spansOf_isSome (hclose : source.IsBoundary closeAt) (index count : Nat) {ns : List Node}
    (hw : ∀ n ∈ ns, n.Ranged source) (ho : Node.Ordered a closeAt ns) :
    (spansOf source closeAt index count ns).isSome := by
  induction ns generalizing a index with
  | nil => rfl
  | cons n ns ih =>
    cases ho with
    | cons _ ho =>
      have hw' : ∀ m ∈ ns, m.Ranged source := fun m hm ↦ hw m (List.mem_cons_of_mem n hm)
      obtain ⟨rest, hrest⟩ := Option.isSome_iff_exists.1 (ih (index + 1) hw' ho)
      obtain ⟨raw, hraw⟩ : ∃ raw, source.slice? n.stop ((ns.head?.map Node.start).getD closeAt) =
          some raw := by
        apply exists_slice? (hw n List.mem_cons_self).isBoundary.2
        · cases ns with
          | nil => exact hclose
          | cons m ns => exact (hw' m List.mem_cons_self).isBoundary.1
        · cases ho with
          | nil hle => exact hle
          | cons hle _ => exact hle
      simp only [spansOf, hraw, hrest]
      rfl

theorem Literal.ofNode?_isSome (hw : t.Nested source) (hk : t.kind = .template)
    (hlt : t.start < t.stop - 1) (hopen : source.charAt? t.start = some mark)
    (hclose : source.charAt? (t.stop - 1) = some mark) : (ofNode? source t).isSome := by
  have hchildren : ∀ s ∈ t.children.filter (·.kind = .substitution), s.Ranged source ∧
      t.start < s.start ∧ s.stop < t.stop := by
    intro s hs
    obtain ⟨hm, hsub⟩ := List.mem_filter.1 hs
    exact ⟨hw.ranged.children s hm,
      hw.substitutionsInside.at? t.at?_nil hk s hm (of_decide_eq_true hsub)⟩
  have ho : Node.Ordered t.start (t.stop - 1) (t.children.filter (·.kind = .substitution)) := by
    apply (hw.ranged.ordered.sublist hw.ranged.children List.filter_sublist).upTo
    · exact Nat.le_of_lt hlt
    · intro s hs
      exact Nat.le_sub_one_of_lt (hchildren s hs).2.2
  simp only [ofNode?, hlt, hopen, hclose, and_self, if_true]
  generalize t.children.filter (·.kind = .substitution) = substitutions at hchildren ho
  have hbefore := isBoundary_of_charAt? hclose
  obtain ⟨spans, hspans⟩ := Option.isSome_iff_exists.1 <|
    spansOf_isSome hbefore 0 substitutions.length (fun s hs ↦ (hchildren s hs).1) ho
  obtain ⟨raw, hraw⟩ : ∃ raw, source.slice? (t.start + 1)
      ((substitutions.head?.map Node.start).getD (t.stop - 1)) = some raw := by
    apply exists_slice? (isBoundary_of_slice? (slice?_mark hopen)).2
    · cases substitutions with
      | nil => exact hbefore
      | cons s substitutions => exact (hchildren s List.mem_cons_self).1.isBoundary.1
    · cases substitutions with
      | nil => exact hlt
      | cons s substitutions => exact (hchildren s List.mem_cons_self).2.1
  rw [hraw, hspans]
  rfl

end Template

theorem mem_of_statementBefore? (h : statementBefore? c = some n) : ∃ f ∈ c.frames, n ∈ f.left := by
  simp only [statementBefore?, Option.bind_eq_bind] at h
  obtain ⟨list, hlist, h⟩ := Option.bind_eq_some_iff.1 h
  split at h
  · obtain ⟨m, hm, h⟩ := Option.bind_eq_some_iff.1 h
    obtain ⟨-, he⟩ := Option.ite_none_right_eq_some.1 h
    cases he
    unfold Cursor.parent? at hlist
    split at hlist
    · cases hlist
    · next f frames hf =>
      have hleft : c.before = f.left := by rw [Cursor.before, hf]
      refine ⟨f, hf ▸ List.mem_cons_self, ?_⟩
      rw [← hleft]
      exact List.mem_of_find?_eq_some hm
  · cases h

theorem frames_of_statementFrom? {start : Nat} {frames : List Frame}
    (h : statementFrom? start frames = some c) : c.frames <:+ frames := by
  induction frames with
  | nil => cases h
  | cons f frames ih =>
    rw [statementFrom?] at h
    split at h
    · cases h
    · split at h
      · cases h
        exact List.suffix_cons f frames
      · exact (ih h).trans (List.suffix_cons f frames)

/-- Every piece of the source that is looked at or copied when marker calls are replaced is a slice
of it: in templates that are read, in literals that are written, and before a call that may need a
guard. -/
structure Source.SlicesFit (marker source : Text) (tree : Node) : Prop where
  read : ∀ p n t, tree.at? p = some n → markedTemplate? marker source n = some t →
    t.start < t.stop - 1 → source.charAt? t.start = some mark →
    source.charAt? (t.stop - 1) = some mark → (Literal.ofNode? source t).isSome
  written : ∀ p n l, tree.at? p = some n → replacement? marker source n = some l →
    source.slice? l.openAt (l.openAt + 1) = some [mark] ∧
    source.slice? l.closeAt (l.closeAt + 1) = some [mark] ∧ (l.toSegment? source).isSome
  before : ∀ x ∈ walk (replacement? marker source) (.atRoot tree), ∀ n,
    (statementFrom? x.1.focus.start x.1.frames).bind statementBefore? = some n →
    (source.slice? 0 n.stop).isSome

namespace Source

theorem slicesFit (marker : Text) (h : tree.Nested source) : SlicesFit marker source tree where
  read p n t hn ht := by
    obtain ⟨q, hq⟩ := exists_at?_markedTemplate? ht
    obtain ⟨-, -, hk, -⟩ := markedTemplate?_eq_some ht
    exact Literal.ofNode?_isSome ((h.at? hn).at? hq) hk
  written p n l hn hl := by
    obtain ⟨s, hs, -⟩ := bounded_replacement? (h.at? hn).ranged hl
    obtain ⟨t, -, hl⟩ := Option.bind_eq_some_iff.1 hl
    obtain ⟨-, -, -, hopen, hclose, -⟩ := Literal.ofNode?_eq_some hl
    exact ⟨slice?_mark hopen, slice?_mark hclose, Option.isSome_iff_exists.2 ⟨s, hs⟩⟩
  before x hx n hn := by
    rw [walk_eq_filterMap] at hx
    obtain ⟨c, hc, hx⟩ := List.mem_filterMap.1 hx
    obtain ⟨l, -, rfl⟩ := Option.map_eq_some_iff.1 hx
    obtain ⟨d, hd, hbefore⟩ := Option.bind_eq_some_iff.1 hn
    obtain ⟨f, hf, hleft⟩ := mem_of_statementBefore? hbefore
    have hframe : f ∈ c.frames := (frames_of_statementFrom? hd).subset hf
    have hall : c.Forall (Node.Ranged source) :=
      Cursor.Forall.of_mem_visits (fun _ hn ↦ hn.children) ⟨h.ranged, List.forall_mem_nil _⟩ c hc
    have hstop := ((hall.frames f hframe).left n hleft).isBoundary.2
    exact Option.isSome_iff_exists.2
      (exists_slice? ⟨[], source, rfl, rfl⟩ hstop (Nat.zero_le _))

theorem exists_markerEdits (marker : Text) (h : tree.Ranged source) :
    ∃ es, markerEdits marker source tree = some es ∧ Edit.Sound source (Bounded source) 0 es :=
  exists_sound h fun _ _ _ hn hl ↦ bounded_replacement? (h.at? hn) hl

/-- Where the ranges of a tree fit its source, squeezing succeeds: all slices on the way exist, the
edits are accepted at character boundaries and spliced in, a new map is always made, and a map that
is carried along is refused only if it cannot be read. -/
theorem squeeze_total (marker : Text) (h : tree.Nested source) :
    SlicesFit marker source tree ∧ ∃ edits code,
      markerEdits marker source tree = some edits ∧
      Edit.validate source.size edits = .ok () ∧
      (∀ e ∈ edits, source.IsBoundary e.start ∧ source.IsBoundary e.stop) ∧
      Edit.splice source edits = some code ∧
      squeeze marker source tree = .ok ⟨code, edits⟩ ∧
      (∀ fileName, squeezeMapped marker source fileName tree =
        .ok ⟨code, SourceMap.create source code fileName edits⟩) ∧
      ∀ map, squeezeCarried marker source map tree =
        match SourceMap.read map with
        | .ok tokens =>
          .ok ⟨code, SourceMap.write none (SourceMap.carryTokens source code edits tokens)⟩
        | .error e => .error (.map e) := by
  obtain ⟨edits, hedits, hsound⟩ := exists_markerEdits marker h.ranged
  obtain ⟨s, hsplice, hsqueeze, -⟩ := squeeze_eq (Bounded.accounting source) hedits hsound
  exact ⟨slicesFit marker h, edits, s.text, hedits,
    hsound.validateFrom_eq (Bounded.accounting source) 0 nofun, hsound.isBoundary_of_mem, hsplice,
    hsqueeze, fun fileName ↦ squeezeMapped_eq hsqueeze, squeezeCarried_eq hsqueeze⟩

theorem markerEdits_guardedText : markerEdits ['T'] guardedText guardedTree =
    some [⟨2, 11, ";\x60\\$\x7b\x60".toList, [2, 4, 5, 5, 8, 9]⟩] := by
  cbv

theorem squeeze_guardedText : squeeze ['T'] guardedText guardedTree =
    .ok ⟨"a\n;\x60\\$\x7b\x60\n".toList,
      [⟨2, 11, ";\x60\\$\x7b\x60".toList, [2, 4, 5, 5, 8, 9]⟩]⟩ := by
  rw [squeeze, markerEdits_guardedText]
  rfl

theorem squeeze_total_guardedText : guardedTree.Nested guardedText ∧
    SlicesFit ['T'] guardedText guardedTree ∧ ∃ edits,
      squeeze ['T'] guardedText guardedTree = .ok ⟨"a\n;\x60\\$\x7b\x60\n".toList, edits⟩ ∧
      Edit.validate guardedText.size edits = .ok () ∧
      squeezeCarried ['T'] guardedText [] guardedTree = .error (.map .badJson) := by
  obtain ⟨hfit, edits, code, -, hvalid, -, -, hsqueeze, -, hcarried⟩ :=
    squeeze_total ['T'] nested_guardedTree
  have hcode : code = "a\n;\x60\\$\x7b\x60\n".toList := by
    rw [squeeze_guardedText] at hsqueeze
    cases hsqueeze
    rfl
  have hread : SourceMap.read [] = .error .badJson := by cbv
  have hrefused := hcarried []
  rw [hread] at hrefused
  rw [hcode] at hsqueeze
  exact ⟨nested_guardedTree, hfit, edits, hsqueeze, hvalid, hrefused⟩

end Source

end TemplateSqueeze
