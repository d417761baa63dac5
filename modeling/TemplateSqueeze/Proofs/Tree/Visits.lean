import Mathlib.Data.List.Basic
import TemplateSqueeze.Tree.Walk

namespace TemplateSqueeze

variable {α : Type} {rule : Node → Option α} {n m : Node} {ns : List Node} {p : List Nat}

def Node.at? : Node → List Nat → Option Node
  | n, [] => some n
  | n, i :: path => n.children[i]?.bind fun child ↦ child.at? path

theorem Node.at?_nil (n : Node) : n.at? [] = some n := rfl

theorem Node.at?_cons (n : Node) (i : Nat) (p : List Nat) :
    n.at? (i :: p) = n.children[i]?.bind (·.at? p) := rfl

inductive Node.Everywhere (Q : Node → Prop) : Node → Prop
  | intro {n : Node} : Q n → (∀ c ∈ n.children, Everywhere Q c) → Everywhere Q n

namespace Node.Everywhere

variable {Q : Node → Prop}

theorem iff : Everywhere Q n ↔ Q n ∧ ∀ c ∈ n.children, Everywhere Q c := by
  constructor
  · intro h
    cases h
    exact ⟨‹_›, ‹_›⟩
  · exact fun h ↦ .intro h.1 h.2

theorem subtree (h : Everywhere Q n) (hm : n.at? p = some m) : Everywhere Q m := by
  induction p generalizing n with
  | nil =>
    cases hm
    exact h
  | cons i p ih =>
    obtain ⟨c, hc, hm⟩ := Option.bind_eq_some_iff.1 hm
    exact ih ((iff.1 h).2 c (List.mem_of_getElem? hc)) hm

theorem at? (h : Everywhere Q n) (hm : n.at? p = some m) : Q m :=
  (iff.1 (h.subtree hm)).1

end Node.Everywhere

mutual

instance decidableEverywhere (Q : Node → Prop) [DecidablePred Q] :
    (n : Node) → Decidable (n.Everywhere Q)
  | ⟨kind, start, stop, faulty, children⟩ =>
    have := decidableEverywhereAll Q children
    decidable_of_iff _ (Node.Everywhere.iff (n := ⟨kind, start, stop, faulty, children⟩)).symm

instance decidableEverywhereAll (Q : Node → Prop) [DecidablePred Q] :
    (ns : List Node) → Decidable (∀ n ∈ ns, n.Everywhere Q)
  | [] => isTrue nofun
  | n :: ns =>
    have := decidableEverywhere Q n
    have := decidableEverywhereAll Q ns
    decidable_of_iff (n.Everywhere Q ∧ ∀ m ∈ ns, m.Everywhere Q) List.forall_mem_cons.symm

end

def within (path : List Nat) (x : List Nat × Node) : List Nat × Node := (path ++ x.1, x.2)

theorem map_within (p q : List Nat) (xs : List (List Nat × Node)) :
    (xs.map (within q)).map (within p) = xs.map (within (p ++ q)) := by
  rw [List.map_map]
  refine List.map_congr_left fun x _ ↦ ?_
  simp only [Function.comp_apply, within, List.append_assoc]

def pathOf (frames : List Frame) : List Nat := (frames.map fun f ↦ f.left.length).reverse

theorem pathOf_cons (f : Frame) (frames : List Frame) :
    pathOf (f :: frames) = pathOf frames ++ [f.left.length] := by
  simp [pathOf]

namespace Cursor

def path (c : Cursor) : List Nat := pathOf c.frames

/-- Where a walk goes on: below the focus, unless that is answered or a leaf, and behind it then. -/
def next? (rule : Node → Option α) (c : Cursor) : Option Cursor :=
  if (rule c.focus).isSome then c.following? else c.firstChild?.or c.following?

theorem pending_next? {c d : Cursor} (h : c.next? rule = some d) : d.pending < c.pending := by
  unfold next? at h
  split at h
  · exact pending_following? h
  · rcases Option.or_eq_some_iff.1 h with h | ⟨-, h⟩
    · exact pending_firstChild? h
    · exact pending_following? h

end Cursor

def visits (rule : Node → Option α) (c : Cursor) : List Cursor :=
  match _h : c.next? rule with
  | some d => c :: visits rule d
  | none => [c]
termination_by c.pending
decreasing_by exact Cursor.pending_next? _h

theorem visits_eq (rule : Node → Option α) (c : Cursor) :
    visits rule c = c :: (c.next? rule).elim [] (visits rule) := by
  rw [visits]
  split
  · next d h => rw [h, Option.elim_some]
  · next h => rw [h, Option.elim_none]

structure Frame.Forall (Q : Node → Prop) (f : Frame) : Prop where
  parent : Q f.parent
  left : ∀ m ∈ f.left, Q m
  right : ∀ m ∈ f.right, Q m

structure Cursor.Forall (Q : Node → Prop) (c : Cursor) : Prop where
  focus : Q c.focus
  frames : ∀ f ∈ c.frames, f.Forall Q

namespace Cursor.Forall

variable {Q : Node → Prop} {c d : Cursor}

theorem followingFrom? {frames : List Frame} (hn : Q n) (hf : ∀ f ∈ frames, f.Forall Q)
    (h : Cursor.followingFrom? n frames = some d) : d.Forall Q := by
  fun_induction Cursor.followingFrom? n frames with
  | case1 => cases h
  | case2 n parent left m right frames =>
    cases h
    obtain ⟨⟨hparent, hleft, hright⟩, hframes⟩ := List.forall_mem_cons.1 hf
    obtain ⟨hm, hright⟩ := List.forall_mem_cons.1 hright
    refine ⟨hm, List.forall_mem_cons.2 ⟨⟨hparent, ?_, hright⟩, hframes⟩⟩
    exact List.forall_mem_cons.2 ⟨hn, hleft⟩
  | case3 n parent left frames ih =>
    obtain ⟨hframe, hframes⟩ := List.forall_mem_cons.1 hf
    exact ih hframe.parent hframes h

theorem firstChild? (hQ : ∀ n, Q n → ∀ c ∈ n.children, Q c) (hc : c.Forall Q)
    (h : c.firstChild? = some d) : d.Forall Q := by
  unfold Cursor.firstChild? at h
  split at h
  · cases h
  · next n ns hns =>
    cases h
    obtain ⟨hn, hright⟩ := List.forall_mem_cons.1 (hns ▸ hQ c.focus hc.focus)
    exact ⟨hn, List.forall_mem_cons.2 ⟨⟨hc.focus, nofun, hright⟩, hc.frames⟩⟩

theorem next? (hQ : ∀ n, Q n → ∀ c ∈ n.children, Q c) (hc : c.Forall Q)
    (h : c.next? rule = some d) : d.Forall Q := by
  unfold Cursor.next? at h
  split at h
  · exact followingFrom? hc.focus hc.frames h
  · rcases Option.or_eq_some_iff.1 h with h | ⟨-, h⟩
    · exact firstChild? hQ hc h
    · exact followingFrom? hc.focus hc.frames h

theorem of_mem_visits (hQ : ∀ n, Q n → ∀ c ∈ n.children, Q c) (hc : c.Forall Q) :
    ∀ d ∈ visits rule c, d.Forall Q := by
  fun_induction visits rule c with
  | case1 c d h ih =>
    rw [List.forall_mem_cons]
    exact ⟨hc, ih (hc.next? hQ h)⟩
  | case2 c h =>
    intro d hd
    rw [List.mem_singleton.1 hd]
    exact hc

end Cursor.Forall

theorem walk_eq_filterMap (rule : Node → Option α) (c : Cursor) :
    walk rule c = (visits rule c).filterMap fun d ↦ (rule d.focus).map (d, ·) := by
  fun_induction walk rule c with
  | case1 c answer ha next hn ih =>
    have hnext : c.next? rule = some next := by
      rw [Cursor.next?, ha, Option.isSome_some, if_pos rfl, hn]
    rw [visits_eq, hnext, Option.elim_some, List.filterMap_cons, ha, ih]
    rfl
  | case2 c answer ha hn =>
    have hnext : c.next? rule = none := by
      rw [Cursor.next?, ha, Option.isSome_some, if_pos rfl, hn]
    rw [visits_eq, hnext, Option.elim_none, List.filterMap_cons, ha]
    rfl
  | case3 c ha child hc ih =>
    have hnext : c.next? rule = some child := by simp [Cursor.next?, ha, hc]
    rw [visits_eq, hnext, Option.elim_some, List.filterMap_cons, ha, ih]
    rfl
  | case4 c ha hc next hn ih =>
    have hnext : c.next? rule = some next := by simp [Cursor.next?, ha, hc, hn]
    rw [visits_eq, hnext, Option.elim_some, List.filterMap_cons, ha, ih]
    rfl
  | case5 c ha hc hn =>
    have hnext : c.next? rule = none := by simp [Cursor.next?, ha, hc, hn]
    rw [visits_eq, hnext, Option.elim_none, List.filterMap_cons, ha]
    rfl

mutual

/-- The places that a walk offers to its rule: a node, and, unless the rule answers it, what lies
below it, child by child. -/
def offered (rule : Node → Option α) : Node → List (List Nat × Node)
  | ⟨kind, start, stop, faulty, children⟩ =>
    match rule ⟨kind, start, stop, faulty, children⟩ with
    | some _ => [([], ⟨kind, start, stop, faulty, children⟩)]
    | none => ([], ⟨kind, start, stop, faulty, children⟩) :: offeredAll rule 0 children

def offeredAll (rule : Node → Option α) (index : Nat) : List Node → List (List Nat × Node)
  | [] => []
  | n :: ns => (offered rule n).map (within [index]) ++ offeredAll rule (index + 1) ns

end

theorem offered_of_eq_some {answer : α} (h : rule n = some answer) :
    offered rule n = [([], n)] := by
  cases n
  rw [offered, h]

theorem offered_of_eq_none (h : rule n = none) :
    offered rule n = ([], n) :: offeredAll rule 0 n.children := by
  cases n
  rw [offered, h]

def offeredBehind (rule : Node → Option α) : List Frame → List (List Nat × Node)
  | [] => []
  | f :: frames =>
    (offeredAll rule (f.left.length + 1) f.right).map (within (pathOf frames)) ++
      offeredBehind rule frames

def offeredFrom (rule : Node → Option α) (c : Cursor) : List (List Nat × Node) :=
  (offered rule c.focus).map (within c.path) ++ offeredBehind rule c.frames

theorem offeredBehind_followingFrom? (rule : Node → Option α) (n : Node) (frames : List Frame) :
    offeredBehind rule frames =
      (Cursor.followingFrom? n frames).elim [] (offeredFrom rule) := by
  fun_induction Cursor.followingFrom? n frames with
  | case1 => rfl
  | case2 n parent left m right frames =>
    rw [Option.elim_some, offeredFrom, offeredBehind, offeredBehind, offeredAll, Cursor.path,
      pathOf_cons, List.map_append, map_within, List.append_assoc]
    rfl
  | case3 n parent left frames ih =>
    rw [← ih]
    simp [offeredBehind, offeredAll]

theorem offeredBehind_following? (rule : Node → Option α) (c : Cursor) :
    offeredBehind rule c.frames = c.following?.elim [] (offeredFrom rule) :=
  offeredBehind_followingFrom? rule c.focus c.frames

theorem Cursor.firstChild?_elim (rule : Node → Option α) {c : Cursor} {ns : List Node}
    (hc : c.focus.children = n :: ns) : ∃ d, c.firstChild? = some d ∧
      (offeredAll rule 0 c.focus.children).map (within c.path) ++ offeredBehind rule c.frames =
        offeredFrom rule d := by
  refine ⟨_, by rw [firstChild?, hc], ?_⟩
  have hpath : path ⟨n, ⟨c.focus, [], ns⟩ :: c.frames⟩ = c.path ++ [0] := pathOf_cons _ _
  rw [hc, offeredAll, List.map_append, map_within, offeredFrom, hpath, List.append_assoc]
  rfl

theorem offeredFrom_eq (rule : Node → Option α) (c : Cursor) :
    offeredFrom rule c = (c.path, c.focus) :: (c.next? rule).elim [] (offeredFrom rule) := by
  have hself : within c.path ([], c.focus) = (c.path, c.focus) := by
    rw [within, List.append_nil]
  cases ha : rule c.focus with
  | some answer =>
    have hnext : c.next? rule = c.following? := by simp [Cursor.next?, ha]
    rw [hnext, ← offeredBehind_following?, offeredFrom, offered_of_eq_some ha, List.map_singleton,
      hself]
    rfl
  | none =>
    have hnext : c.next? rule = c.firstChild?.or c.following? := by simp [Cursor.next?, ha]
    rw [hnext, offeredFrom, offered_of_eq_none ha, List.map_cons, hself, List.cons_append]
    cases hc : c.focus.children with
    | nil =>
      have hchild : c.firstChild? = none := by rw [Cursor.firstChild?, hc]
      rw [hchild, Option.none_or, ← offeredBehind_following?]
      rfl
    | cons n ns =>
      obtain ⟨d, hd, he⟩ := Cursor.firstChild?_elim rule hc
      rw [← hc, he, hd, Option.some_or, Option.elim_some]

theorem map_visits (rule : Node → Option α) (c : Cursor) :
    (visits rule c).map (fun d ↦ (d.path, d.focus)) = offeredFrom rule c := by
  fun_induction visits rule c with
  | case1 c d h ih => rw [List.map_cons, ih, offeredFrom_eq rule c, h, Option.elim_some]
  | case2 c h => rw [List.map_singleton, offeredFrom_eq rule c, h, Option.elim_none]

/-- The loop over a cursor offers what the recursion over the tree offers. -/
theorem map_visits_atRoot (rule : Node → Option α) (root : Node) :
    (visits rule (.atRoot root)).map (fun d ↦ (d.path, d.focus)) = offered rule root := by
  have hself : within [] = id := rfl
  have hpath : (Cursor.atRoot root).path = [] := rfl
  rw [map_visits, offeredFrom, hpath, hself, List.map_id]
  exact List.append_nil _

theorem mem_offeredAll {index : Nat} {x : List Nat × Node} : x ∈ offeredAll rule index ns ↔
    ∃ i c, ns[i]? = some c ∧ ∃ y ∈ offered rule c, within [index + i] y = x := by
  induction ns generalizing index with
  | nil => simp [offeredAll]
  | cons n ns ih =>
    rw [offeredAll, List.mem_append, ih, List.mem_map,
      ← Nat.or_exists_add_one (p := fun i ↦ ∃ c, (n :: ns)[i]? = some c ∧ _)]
    simp only [List.getElem?_cons_zero, List.getElem?_cons_succ, Option.some.injEq,
      exists_eq_left', Nat.add_zero, Nat.add_assoc, Nat.add_comm 1]

theorem cons_mem_offered {i : Nat} : (i :: p, m) ∈ offered rule n ↔
    rule n = none ∧ ∃ c, n.children[i]? = some c ∧ (p, m) ∈ offered rule c := by
  cases ha : rule n with
  | some answer => simp [offered_of_eq_some ha]
  | none =>
    rw [offered_of_eq_none ha, List.mem_cons, mem_offeredAll]
    simp [within]

theorem nil_mem_offered : ([], m) ∈ offered rule n ↔ m = n := by
  cases ha : rule n with
  | some answer => simp [offered_of_eq_some ha]
  | none =>
    rw [offered_of_eq_none ha, List.mem_cons, mem_offeredAll]
    simp [within]

/-- Offered are the nodes of the tree that lie below no answered one. -/
theorem mem_offered : (p, m) ∈ offered rule n ↔ n.at? p = some m ∧
    ∀ q r, q <+: p → q ≠ p → n.at? q = some r → rule r = none := by
  induction p generalizing n with
  | nil =>
    rw [nil_mem_offered, Node.at?_nil, Option.some.injEq, eq_comm (a := m)]
    refine ⟨fun h ↦ ⟨h, fun q r hq hne ↦ ?_⟩, fun h ↦ h.1⟩
    exact absurd (List.prefix_nil.1 hq) hne
  | cons i p ih =>
    rw [cons_mem_offered, Node.at?_cons]
    constructor
    · rintro ⟨ha, c, hc, hm⟩
      obtain ⟨hat, habove⟩ := ih.1 hm
      rw [hc]
      refine ⟨hat, fun q r hq hne hr ↦ ?_⟩
      cases q with
      | nil =>
        cases hr
        exact ha
      | cons j q =>
        obtain ⟨rfl, hq'⟩ := List.cons_prefix_cons.1 hq
        rw [Node.at?_cons, hc] at hr
        exact habove q r hq' (fun he ↦ hne (he ▸ rfl)) hr
    · rintro ⟨hat, habove⟩
      obtain ⟨c, hc, hat⟩ := Option.bind_eq_some_iff.1 hat
      refine ⟨habove [] n (List.nil_prefix) (by simp) rfl, c, hc, ih.2 ⟨hat, ?_⟩⟩
      intro q r hq hne hr
      refine habove (i :: q) r (List.cons_prefix_cons.2 ⟨rfl, hq⟩) (by simpa using hne) ?_
      rw [Node.at?_cons, hc]
      exact hr

theorem pairwise_within {xs : List (List Nat × Node)} (i : Nat)
    (h : (xs.map Prod.fst).Pairwise (· < ·)) :
    ((xs.map (within [i])).map Prod.fst).Pairwise (· < ·) := by
  rw [List.pairwise_map] at h ⊢
  refine List.pairwise_map.2 (h.imp fun {x y} hxy ↦ ?_)
  exact List.cons_lt_cons_iff.2 (.inr ⟨rfl, hxy⟩)

mutual

theorem pairwise_offered (rule : Node → Option α) :
    ∀ n : Node, ((offered rule n).map Prod.fst).Pairwise (· < ·)
  | ⟨kind, start, stop, faulty, children⟩ => by
    rw [offered]
    split
    · exact List.pairwise_singleton _ _
    · rw [List.map_cons, List.pairwise_cons]
      refine ⟨fun q hq ↦ ?_, pairwise_offeredAll rule 0 children⟩
      obtain ⟨x, hx, rfl⟩ := List.mem_map.1 hq
      obtain ⟨i, c, -, y, -, rfl⟩ := mem_offeredAll.1 hx
      exact List.nil_lt_cons _ _

theorem pairwise_offeredAll (rule : Node → Option α) (index : Nat) :
    ∀ ns : List Node, ((offeredAll rule index ns).map Prod.fst).Pairwise (· < ·)
  | [] => List.Pairwise.nil
  | n :: ns => by
    rw [offeredAll, List.map_append, List.pairwise_append]
    refine ⟨pairwise_within index (pairwise_offered rule n),
      pairwise_offeredAll rule (index + 1) ns, fun q hq q' hq' ↦ ?_⟩
    simp only [List.map_map, List.mem_map, Function.comp_apply] at hq hq'
    obtain ⟨x, -, rfl⟩ := hq
    obtain ⟨x', hx', rfl⟩ := hq'
    obtain ⟨i, c, -, y, -, rfl⟩ := mem_offeredAll.1 hx'
    exact List.cons_lt_cons_iff.2 (.inl (by omega))

end

mutual

theorem length_offered_le (rule : Node → Option α) :
    ∀ n : Node, (offered rule n).length ≤ n.count
  | ⟨kind, start, stop, faulty, children⟩ => by
    have := length_offeredAll_le rule 0 children
    rw [offered, Node.count]
    split
    · simp
    · rw [List.length_cons]
      omega

theorem length_offeredAll_le (rule : Node → Option α) (index : Nat) :
    ∀ ns : List Node, (offeredAll rule index ns).length ≤ Node.countAll ns
  | [] => Nat.le_refl _
  | n :: ns => by
    have := length_offered_le rule n
    have := length_offeredAll_le rule (index + 1) ns
    rw [offeredAll, Node.countAll, List.length_append, List.length_map]
    omega

end

mutual

theorem outermost_eq_filterMap (rule : Node → Option α) : ∀ n : Node,
    outermost rule n = (offered rule n).filterMap fun x ↦ (rule x.2).map (x.2, ·)
  | ⟨kind, start, stop, faulty, children⟩ => by
    cases ha : rule ⟨kind, start, stop, faulty, children⟩ with
    | some answer =>
      rw [outermost, offered_of_eq_some ha, List.filterMap_cons, ha]
      rfl
    | none =>
      rw [outermost, offered_of_eq_none ha, List.filterMap_cons, ha,
        outermostAll_eq_filterMap rule 0 children]
      rfl

theorem outermostAll_eq_filterMap (rule : Node → Option α) (index : Nat) : ∀ ns : List Node,
    outermostAll rule ns = (offeredAll rule index ns).filterMap fun x ↦ (rule x.2).map (x.2, ·)
  | [] => rfl
  | n :: ns => by
    rw [outermostAll, offeredAll, List.filterMap_append, List.filterMap_map,
      outermost_eq_filterMap rule n, outermostAll_eq_filterMap rule (index + 1) ns]
    rfl

end

theorem map_walk_atRoot (rule : Node → Option α) (root : Node) :
    (walk rule (.atRoot root)).map (fun x ↦ (x.1.focus, x.2)) = outermost rule root := by
  rw [walk_eq_filterMap, outermost_eq_filterMap, ← map_visits_atRoot, List.map_filterMap,
    List.filterMap_map]
  refine List.filterMap_congr fun c _ ↦ ?_
  simp only [Option.map_map, Function.comp_def]

theorem exists_at?_of_mem_outermost {x : Node × α} (h : x ∈ outermost rule n) :
    rule x.1 = some x.2 ∧ ∃ p, n.at? p = some x.1 := by
  rw [outermost_eq_filterMap] at h
  obtain ⟨⟨p, m⟩, hm, hx⟩ := List.mem_filterMap.1 h
  obtain ⟨answer, ha, rfl⟩ := Option.map_eq_some_iff.1 hx
  exact ⟨ha, p, (mem_offered.1 hm).1⟩

end TemplateSqueeze
