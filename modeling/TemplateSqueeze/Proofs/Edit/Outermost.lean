import TemplateSqueeze.Proofs.Edit.Total

namespace TemplateSqueeze

open Text Template Segment

variable {marker source code t : Text} {tree n : Node} {a : Nat} {e : Edit} {es : List Edit}
  {rule : Node → Option Literal}

/-- The rounds of a walk offer to the rule, once and in the order of the tree, the places that lie
below no answered one. -/
structure OffersOnce {α : Type} (rule : Node → Option α) (tree : Node) : Prop where
  visited : ((visits rule (.atRoot tree)).map fun c ↦ (c.path, c.focus)) = offered rule tree
  mem_iff : ∀ p n, (p, n) ∈ offered rule tree ↔ tree.at? p = some n ∧
    ∀ q m, q <+: p → q ≠ p → tree.at? q = some m → rule m = none
  ordered : ((offered rule tree).map Prod.fst).Pairwise (· < ·)
  length_le : (visits rule (.atRoot tree)).length ≤ tree.count

theorem offersOnce {α : Type} (rule : Node → Option α) (tree : Node) : OffersOnce rule tree where
  visited := map_visits_atRoot rule tree
  mem_iff _ _ := mem_offered
  ordered := pairwise_offered rule tree
  length_le := by
    have hlength := length_offered_le rule tree
    rwa [← map_visits_atRoot, List.length_map] at hlength

/-- The loop over a cursor answers where the recursion over the tree does. -/
structure WalkRecurses {α : Type} (rule : Node → Option α) (tree : Node) : Prop where
  walk_eq : walk rule (.atRoot tree) =
    (visits rule (.atRoot tree)).filterMap fun c ↦ (rule c.focus).map (c, ·)
  map_walk : ((walk rule (.atRoot tree)).map fun x ↦ (x.1.focus, x.2)) = outermost rule tree
  outermost_eq : outermost rule tree =
    (offered rule tree).filterMap fun x ↦ (rule x.2).map (x.2, ·)

theorem walkRecurses {α : Type} (rule : Node → Option α) (tree : Node) :
    WalkRecurses rule tree where
  walk_eq := walk_eq_filterMap rule _
  map_walk := map_walk_atRoot rule tree
  outermost_eq := outermost_eq_filterMap rule tree

def Node.range (n : Node) : Nat × Nat := (n.start, n.stop)

def Edit.range (e : Edit) : Nat × Nat := (e.start, e.stop)

/-- A text that copies the source from an offset on, but for ranges that have given way to other
text, each in its turn. -/
inductive Text.CopiedOutside (source : Text) : Nat → List (Nat × Nat) → Text → Prop
  | nil {a : Nat} {t : Text} : source.slice? a source.size = some t → CopiedOutside source a [] t
  | cons {a start stop : Nat} {ranges : List (Nat × Nat)} {copied new rest : Text} :
    source.slice? a start = some copied → start ≤ stop → CopiedOutside source stop ranges rest →
    CopiedOutside source a ((start, stop) :: ranges) (copied ++ new ++ rest)

theorem mapM_isSome {α β : Type} {f : α → Option β} {xs : List α} :
    (xs.mapM f).isSome ↔ ∀ x ∈ xs, (f x).isSome := by
  induction xs with
  | nil => exact ⟨fun _ ↦ nofun, fun _ ↦ rfl⟩
  | cons x xs ih =>
    rw [List.forall_mem_cons, ← ih, List.mapM_cons]
    cases f x with
    | none => simp
    | some y =>
      cases xs.mapM f with
      | none => simp
      | some ys => simp

namespace Edit

theorem copiedOutside (h : spliceFrom source a es = some code)
    (hle : ∀ e ∈ es, e.start ≤ e.stop) : source.CopiedOutside a (es.map range) code := by
  induction es generalizing a code with
  | nil => exact .nil h
  | cons e es ih =>
    obtain ⟨copied, rest, hcopied, hrest, rfl⟩ := spliceFrom_cons_eq_some.1 h
    obtain ⟨he, hes⟩ := List.forall_mem_cons.1 hle
    exact .cons hcopied he (ih hrest hes)

theorem ofLiteral_isSome {c : Cursor} {l : Literal} :
    (ofLiteral source c l).isSome ↔ (l.toSegment? source).isSome := by
  unfold ofLiteral
  cases l.toSegment? source with
  | none => exact Iff.rfl
  | some s => exact Iff.rfl

theorem range_ofLiteral {c : Cursor} {l : Literal} (h : ofLiteral source c l = some e) :
    e.range = c.focus.range := by
  simp only [ofLiteral, Option.bind_eq_bind, Option.bind_eq_some_iff, Option.pure_def,
    Option.some.injEq] at h
  obtain ⟨s, -, rfl⟩ := h
  rfl

theorem map_range_mapM {found : List (Cursor × Literal)}
    (h : (found.mapM fun (c, l) ↦ ofLiteral source c l) = some es) :
    es.map range = found.map fun x ↦ x.1.focus.range := by
  have hall := forall₂_of_mapM h
  clear h
  induction hall with
  | nil => rfl
  | cons he _ ih => rw [List.map_cons, List.map_cons, ih, range_ofLiteral he]

theorem ofTree_isSome : (ofTree source rule tree).isSome ↔
    ∀ x ∈ outermost rule tree, (x.2.toSegment? source).isSome := by
  rw [ofTree, mapM_isSome, ← map_walk_atRoot, List.forall_mem_map]
  exact forall₂_congr fun x _ ↦ ofLiteral_isSome

theorem map_range_ofTree (h : ofTree source rule tree = some es) :
    es.map range = (outermost rule tree).map fun x ↦ x.1.range := by
  rw [map_range_mapM h, ← map_walk_atRoot, List.map_map]
  rfl

end Edit

/-- There is one edit for each outermost node that is answered, of its range, if what is to stand
there can be written. -/
structure EditsOutermost (source : Text) (rule : Node → Option Literal) (tree : Node) : Prop where
  isSome_iff : (Edit.ofTree source rule tree).isSome ↔
    ∀ x ∈ outermost rule tree, (x.2.toSegment? source).isSome
  ranges : ∀ es, Edit.ofTree source rule tree = some es →
    es.map Edit.range = (outermost rule tree).map fun x ↦ x.1.range

theorem editsOutermost (source : Text) (rule : Node → Option Literal) (tree : Node) :
    EditsOutermost source rule tree where
  isSome_iff := Edit.ofTree_isSome
  ranges _ := Edit.map_range_ofTree

namespace Source

def CopiesOutside (marker source : Text) (tree : Node) : Prop :=
  ∃ q, squeeze marker source tree = .ok q ∧ source.CopiedOutside 0
    ((outermost (replacement? marker source) tree).map fun x ↦ x.1.range) q.code

theorem copiesOutside (marker : Text) (h : tree.Ranged source) :
    CopiesOutside marker source tree := by
  obtain ⟨es, hes, hsound⟩ := exists_markerEdits marker h
  obtain ⟨s, hsplice, hq, -⟩ := squeeze_eq (Bounded.accounting source) hes hsound
  refine ⟨_, hq, ?_⟩
  rw [← Edit.map_range_ofTree hes]
  exact Edit.copiedOutside hsplice (hsound.start_le_stop (Bounded.accounting source))

structure StaysUnmarked (marker source : Text) (tree : Node) : Prop where
  of_none : (∀ p n, tree.at? p = some n → replacement? marker source n = none) →
    squeeze marker source tree = .ok ⟨source, []⟩
  of_not_infix : ¬ marker <:+: source → squeeze marker source tree = .ok ⟨source, []⟩

theorem squeeze_of_no_marker
    (h : ∀ p n, tree.at? p = some n → replacement? marker source n = none) :
    squeeze marker source tree = .ok ⟨source, []⟩ := by
  have hwalk : walk (replacement? marker source) (.atRoot tree) = [] := by
    rw [List.eq_nil_iff_forall_not_mem]
    intro x hx
    obtain ⟨hr, p, hp⟩ := exists_at?_of_mem_walk hx
    rw [h p x.1.focus hp] at hr
    cases hr
  have hedits : markerEdits marker source tree = some [] := by
    rw [markerEdits, Edit.ofTree, hwalk]
    rfl
  rw [squeeze, hedits]
  simp only [Edit.splice_nil]
  rfl

theorem replacement?_of_not_infix (h : ¬ marker <:+: source) (n : Node) :
    replacement? marker source n = none := by
  rw [Option.eq_none_iff_forall_ne_some]
  intro l hl
  obtain ⟨t, ht, -⟩ := Option.bind_eq_some_iff.1 hl
  obtain ⟨-, -, -, callee, -, -, -, hname, -⟩ := markedTemplate?_eq_some ht
  obtain ⟨a, r, he, -⟩ := slice?_eq_some.1 hname
  exact h ⟨a, r, he.symm⟩

theorem staysUnmarked (marker source : Text) (tree : Node) :
    StaysUnmarked marker source tree where
  of_none := squeeze_of_no_marker
  of_not_infix h := squeeze_of_no_marker fun _ n _ ↦ replacement?_of_not_infix h n

/-- The loop over a cursor does what the recursion over the tree does: it offers to its rule, once
and in order, the nodes below no answered one, and there is one edit for each that is answered. For
marker calls all outside of the outermost ones is copied, and a source without any stays as it
is. -/
theorem replaces_outermost (rule : Node → Option Literal) (marker source : Text) (tree : Node) :
    OffersOnce rule tree ∧ WalkRecurses rule tree ∧ EditsOutermost source rule tree ∧
      (tree.Ranged source → CopiesOutside marker source tree) ∧
      StaysUnmarked marker source tree :=
  ⟨offersOnce rule tree, walkRecurses rule tree, editsOutermost source rule tree,
    copiesOutside marker, staysUnmarked marker source tree⟩

theorem replaces_outermost_guardedText : guardedTree.Ranged guardedText ∧
    (visits (fun n ↦ if n.kind = .call then some (Literal.mk 0 0 [] []) else none)
      (.atRoot guardedTree)).map Cursor.path = [[], [0], [0, 0], [1], [1, 0]] ∧
    (∃ q, squeeze ['T'] guardedText guardedTree = .ok q ∧
      guardedText.CopiedOutside 0 [(2, 11)] q.code) ∧
    squeeze ['U'] guardedText guardedTree = .ok ⟨guardedText, []⟩ := by
  have hranged := nested_guardedTree.ranged
  obtain ⟨hoffers, -⟩ := replaces_outermost
    (fun n ↦ if n.kind = .call then some (Literal.mk 0 0 [] []) else none) [] [] guardedTree
  have hplaces := congrArg (List.map Prod.fst) hoffers.visited
  rw [List.map_map] at hplaces
  obtain ⟨-, -, hedits, hcopied, -⟩ :=
    replaces_outermost (replacement? ['T'] guardedText) ['T'] guardedText guardedTree
  obtain ⟨q, hq, hsqueezed⟩ := hcopied hranged
  rw [← hedits.ranges _ markerEdits_guardedText] at hsqueezed
  obtain ⟨-, -, -, -, hstays⟩ :=
    replaces_outermost (replacement? ['U'] guardedText) ['U'] guardedText guardedTree
  have habsent : 'U' ∉ guardedText := by decide
  refine ⟨hranged, hplaces.trans (by decide), ⟨q, hq, hsqueezed⟩, hstays.of_not_infix fun h ↦ ?_⟩
  exact habsent (h.subset List.mem_cons_self)

end Source

end TemplateSqueeze
