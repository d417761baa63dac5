import TemplateSqueeze.Proofs.Edit.Total
import TemplateSqueeze.Proofs.Template.Traced

namespace TemplateSqueeze

open Text Template

variable {marker source : Text} {tree n : Node} {l : Literal} {p : List Nat}

/-- In a call without a fault, a bare name that is called has at least one byte. -/
def Node.CalleesNamed (tree : Node) : Prop :=
  ∀ p n callee, tree.at? p = some n → n.kind = .call → n.faulty = false →
    callee? n = some callee → callee.kind = .identifier → callee.start < callee.stop

/-- Where a call begins that is replaced by a literal with a guard in front. -/
def GuardedAt (marker source : Text) (tree : Node) (x : Nat) : Prop :=
  ∃ y ∈ walk (replacement? marker source) (.atRoot tree),
    y.1.focus.start = x ∧ needsGuard source y.1

theorem Node.CalleesNamed.marker_ne_nil (hname : marker = [] → tree.CalleesNamed)
    (hn : tree.at? p = some n) (h : replacement? marker source n = some l) : marker ≠ [] := by
  intro hempty
  obtain ⟨t, ht, -⟩ := Option.bind_eq_some_iff.1 h
  obtain ⟨hk, hf, -, callee, -, hcallee, hkind, hslice, -⟩ := markedTemplate?_eq_some ht
  have hsize := size_of_slice? hslice
  have hlt := hname hempty p n callee hn hk hf hcallee hkind
  rw [hempty, size_nil] at hsize
  omega

namespace Source

theorem exists_traced (marker : Text) (h : tree.Ranged source)
    (hname : marker = [] → tree.CalleesNamed) :
    ∃ es, markerEdits marker source tree = some es ∧
      Edit.Sound source (Traced source (GuardedAt marker source tree)) 0 es := by
  apply Edit.exists_ofTree h
  intro x hx
  obtain ⟨hr, p, hp⟩ := exists_at?_of_mem_walk hx
  have hne := Node.CalleesNamed.marker_ne_nil hname hp hr
  obtain ⟨s, hs, hplain, hguard⟩ := traced_replacement? (h.at? hp) hne hr
  exact ⟨s, hs, guarded_of hplain fun hneeds ↦ hguard ⟨x, hx, rfl, hneeds⟩⟩

theorem exists_guard {es : List Edit} {code : Text} {c : Cursor} {R : Nat → Nat → Segment → Prop}
    (hes : markerEdits marker source tree = some es) (hsound : Edit.Sound source R 0 es)
    (hcode : Edit.splice source es = some code)
    (hc : (c, l) ∈ walk (replacement? marker source) (.atRoot tree))
    (hneeds : needsGuard source c) : ∃ i,
      (Edit.spliceOrigins source.size es)[i]? = some c.focus.start ∧ code.charAt? i = some ';' ∧
      (Edit.spliceOrigins source.size es)[i + 1]? = some l.openAt ∧
      code.charAt? (i + 1) = some mark := by
  obtain ⟨e, he, hce⟩ := exists_mem_of_mapM hes hc
  obtain ⟨w, rest, hr, ho⟩ : ∃ w rest, e.replacement = ';' :: mark :: w ∧
      e.origins = c.focus.start :: l.openAt :: rest := by
    simp only [Edit.ofLiteral, Option.bind_eq_bind, Option.bind_eq_some_iff, Option.pure_def,
      Option.some.injEq, guarded, hneeds, if_true] at hce
    obtain ⟨s, hs, rfl⟩ := hce
    obtain ⟨s, rfl⟩ := Literal.exists_cons_of_toSegment? hs
    exact ⟨Segment.text s, Segment.origins s, rfl, rfl⟩
  obtain ⟨pre, post, before, behind, rfl, horigins, hlength⟩ :=
    hsound.exists_replacement hcode he
  rw [Edit.spliceOrigins, horigins, ho, hr]
  refine ⟨pre.size, by simp [← hlength], charAt?_eq_some.2 ⟨pre, mark :: w ++ post, by simp, rfl⟩,
    by simp [← hlength], charAt?_eq_some.2 ⟨pre ++ [';'], w ++ post, by simp, ?_⟩⟩
  exact size_append pre [';']

/-- Every byte of a squeezed source has one origin, a byte of the source, and origins never
decrease. A byte is a copy of its origin, or a guard that stands for the first byte of a call, or
part of a unit that is spelled another way; two bytes in a row share an origin only within one. -/
theorem origins_accounted (marker : Text) (h : tree.Ranged source)
    (hname : marker = [] → tree.CalleesNamed) :
    ∃ q origins, squeeze marker source tree = .ok q ∧
      Edit.spliceOrigins source.size q.edits = origins ∧
      origins.length = q.code.bytes.length ∧
      (∀ x ∈ origins, x < source.bytes.length) ∧
      origins.Pairwise (· ≤ ·) ∧
      (∀ i x, origins[i]? = some x →
        q.code.bytes[i]? = source.bytes[x]? ∨
        (q.code.charAt? i = some ';' ∧ GuardedAt marker source tree x) ∨
        ∃ j old new, RespelledAt source q.code origins j x old new ∧ j ≤ i ∧ i < j + new.size) ∧
      (∀ x, GuardedAt marker source tree x →
        ∃ i, origins[i]? = some x ∧ q.code.charAt? i = some ';') ∧
      ∀ i x, origins[i]? = some x → origins[i + 1]? = some x →
        ∃ j old new, RespelledAt source q.code origins j x old new ∧ j ≤ i ∧
          i + 1 < j + new.size := by
  obtain ⟨es, hes, hsound⟩ := exists_traced marker h hname
  obtain ⟨s, hcode, hq, horigins, htraced⟩ := squeeze_eq (Traced.accounting source _) hes hsound
  refine ⟨_, s.origins, hq, horigins, ?_, ?_, htraced.sorted_origins, ?_, ?_, ?_⟩
  · rw [Segment.length_origins, length_bytes]
  · intro x hx
    rw [length_bytes]
    exact (htraced.bounds x hx).2
  · intro i x hx
    exact htraced.getElem?_bytes hx
  · intro x hx
    obtain ⟨y, hy, rfl, hneeds⟩ := hx
    obtain ⟨i, hi, hc, -⟩ := exists_guard hes hsound hcode hy hneeds
    exact ⟨i, horigins ▸ hi, hc⟩
  · intro i x hx hx'
    exact htraced.respelledAt_of_eq hx hx'

theorem origins_accounted_guardedText : guardedTree.Ranged guardedText ∧
    ∃ q, squeeze ['T'] guardedText guardedTree = .ok q ∧
      Edit.spliceOrigins guardedText.size q.edits = [0, 1, 2, 4, 5, 5, 8, 9, 11] ∧
      ∃ j old new, RespelledAt guardedText q.code [0, 1, 2, 4, 5, 5, 8, 9, 11] j 5 old new ∧
        j ≤ 4 ∧ 5 < j + new.size := by
  have hranged := nested_guardedTree.ranged
  obtain ⟨q, origins, hq, horigins, -, -, -, -, -, hequal⟩ :=
    origins_accounted ['T'] hranged nofun
  rw [squeeze_guardedText] at hq
  cases hq
  have hlist : origins = [0, 1, 2, 4, 5, 5, 8, 9, 11] := by
    rw [← horigins]
    rfl
  rw [hlist] at horigins hequal
  exact ⟨hranged, _, squeeze_guardedText, horigins, hequal 4 5 rfl rfl⟩

end Source

end TemplateSqueeze
