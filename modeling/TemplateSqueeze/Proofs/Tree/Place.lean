import TemplateSqueeze.Edit.Guard
import TemplateSqueeze.Proofs.Tree.Walk

namespace TemplateSqueeze

variable {α : Type} {rule : Node → Option α} {source : Text} {root n m s prev : Node}
  {f : Frame} {frames : List Frame} {p q : List Nat} {start : Nat} {c d : Cursor}

theorem Node.at?_append (n : Node) (p q : List Nat) :
    n.at? (p ++ q) = (n.at? p).bind (·.at? q) := by
  induction p generalizing n with
  | nil => rfl
  | cons i p ih =>
    rw [List.cons_append, at?_cons, at?_cons, Option.bind_assoc]
    exact Option.bind_congr fun c _ ↦ ih c

namespace Node

theorem Ordered.pairwise {a b : Nat} {ns : List Node} (h : Ordered a b ns)
    (hw : ∀ n ∈ ns, Ranged source n) : ns.Pairwise fun n m ↦ n.stop ≤ m.start := by
  induction h with
  | nil => exact .nil
  | cons _ ht ih =>
    obtain ⟨-, hns⟩ := List.forall_mem_cons.1 hw
    exact List.pairwise_cons.2 ⟨fun m hm ↦ ((ht.bounds hns).2 m hm).1, ih hns⟩

theorem Ranged.bounds (h : Ranged source n) (hm : n.at? p = some m) :
    n.start ≤ m.start ∧ m.stop ≤ n.stop := by
  induction p generalizing n with
  | nil =>
    cases hm
    exact ⟨Nat.le_refl _, Nat.le_refl _⟩
  | cons i p ih =>
    obtain ⟨c, hc, hm⟩ := Option.bind_eq_some_iff.1 hm
    have hmem := List.mem_of_getElem? hc
    obtain ⟨hstart, hstop⟩ := ih (h.children c hmem) hm
    obtain ⟨hle, hle'⟩ := (h.ordered.bounds h.children).2 c hmem
    exact ⟨Nat.le_trans hle hstart, Nat.le_trans hstop hle'⟩

/-- Unless one of two nodes lies below the other, one of them ends before the other begins. -/
theorem Ranged.apart (h : Ranged source root) (hn : root.at? p = some n)
    (hm : root.at? q = some m) :
    p <+: q ∨ q <+: p ∨ n.stop ≤ m.start ∨ m.stop ≤ n.start := by
  induction p generalizing root q with
  | nil => exact .inl List.nil_prefix
  | cons i p ih =>
    cases q with
    | nil => exact .inr (.inl List.nil_prefix)
    | cons j q =>
      obtain ⟨c, hc, hn⟩ := Option.bind_eq_some_iff.1 hn
      obtain ⟨d, hd, hm⟩ := Option.bind_eq_some_iff.1 hm
      obtain ⟨hi, hc⟩ := List.getElem?_eq_some_iff.1 hc
      obtain ⟨hj, hd⟩ := List.getElem?_eq_some_iff.1 hd
      have hcr := h.children c (hc ▸ List.getElem_mem hi)
      have hdr := h.children d (hd ▸ List.getElem_mem hj)
      have hcb := hcr.bounds hn
      have hdb := hdr.bounds hm
      have horder := List.pairwise_iff_getElem.1 (h.ordered.pairwise h.children)
      -- The places lie below different children, which are in order, or below the same.
      rcases Nat.lt_trichotomy i j with hlt | rfl | hlt
      · have hle := horder i j hi hj hlt
        rw [hc, hd] at hle
        omega
      · obtain rfl := hc.symm.trans hd
        simpa [List.cons_prefix_cons] using ih hcr hn hm
      · have hle := horder j i hj hi hlt
        rw [hc, hd] at hle
        omega

end Node

/-- Each frame holds the parent of what comes before it, with the siblings on either side. -/
def Node.LeadsTo (root : Node) : Node → List Frame → Prop
  | focus, [] => focus = root
  | focus, f :: frames =>
    f.parent.children = f.left.reverse ++ focus :: f.right ∧ LeadsTo root f.parent frames

namespace Node.LeadsTo

theorem at? (h : root.LeadsTo n frames) : root.at? (pathOf frames) = some n := by
  induction frames generalizing n with
  | nil => rw [LeadsTo] at h; rw [h]; rfl
  | cons f frames ih =>
    obtain ⟨hchildren, hparent⟩ := h
    rw [pathOf_cons, Node.at?_append, ih hparent, Option.bind_some, Node.at?_cons, hchildren,
      ← List.length_reverse, List.getElem?_append_right (Nat.le_refl _), Nat.sub_self]
    rfl

theorem followingFrom? (h : root.LeadsTo n frames)
    (hd : Cursor.followingFrom? n frames = some d) : root.LeadsTo d.focus d.frames := by
  fun_induction Cursor.followingFrom? n frames with
  | case1 => cases hd
  | case2 n parent left m right frames =>
    cases hd
    refine ⟨?_, h.2⟩
    rw [h.1, List.reverse_cons, List.append_assoc]
    rfl
  | case3 n parent left frames ih => exact ih h.2 hd

theorem firstChild? (h : root.LeadsTo c.focus c.frames) (hd : c.firstChild? = some d) :
    root.LeadsTo d.focus d.frames := by
  unfold Cursor.firstChild? at hd
  split at hd
  · cases hd
  · next hchildren =>
    cases hd
    exact ⟨hchildren, h⟩

theorem next? (h : root.LeadsTo c.focus c.frames) (hd : c.next? rule = some d) :
    root.LeadsTo d.focus d.frames := by
  unfold Cursor.next? at hd
  split at hd
  · exact h.followingFrom? hd
  · rcases Option.or_eq_some_iff.1 hd with hd | ⟨-, hd⟩
    · exact h.firstChild? hd
    · exact h.followingFrom? hd

theorem of_mem_visits (h : root.LeadsTo c.focus c.frames) :
    ∀ d ∈ visits rule c, root.LeadsTo d.focus d.frames := by
  fun_induction visits rule c with
  | case1 c d hd ih => exact List.forall_mem_cons.2 ⟨h, ih (h.next? hd)⟩
  | case2 c hd => exact List.forall_mem_singleton.2 h

theorem of_mem_walk {answer : α} (h : (d, answer) ∈ walk rule (.atRoot root)) :
    root.LeadsTo d.focus d.frames := by
  rw [walk_eq_filterMap] at h
  obtain ⟨c, hc, ha⟩ := List.mem_filterMap.1 h
  obtain ⟨_, -, he⟩ := Option.map_eq_some_iff.1 ha
  cases he
  exact of_mem_visits (c := .atRoot root) rfl d hc

end Node.LeadsTo

/-- The climb from a place through ancestors that start at `start`, up to the first of them that is
an expression statement: `s`, at the place `q`. -/
inductive Node.Climb (root : Node) (start : Nat) : List Nat → List Nat → Node → Prop
  | found {p : List Nat} {i : Nat} {s : Node} : root.at? p = some s → s.start = start →
    s.kind = .expressionStatement → Climb root start (p ++ [i]) p s
  | up {p q : List Nat} {i : Nat} {m s : Node} : root.at? p = some m → m.start = start →
    m.kind ≠ .expressionStatement → Climb root start p q s → Climb root start (p ++ [i]) q s

theorem Node.climb_concat {i : Nat} (hm : root.at? p = some m) :
    root.Climb start (p ++ [i]) q s ↔ m.start = start ∧
      (m.kind = .expressionStatement ∧ q = p ∧ s = m ∨
        m.kind ≠ .expressionStatement ∧ root.Climb start p q s) := by
  constructor
  · intro h
    generalize hr : p ++ [i] = r at h
    cases h with
    | found hs hstart hk =>
      obtain rfl := (List.append_inj' hr rfl).1
      obtain rfl := Option.some.inj (hm.symm.trans hs)
      exact ⟨hstart, .inl ⟨hk, rfl, rfl⟩⟩
    | up hm' hstart hk hc =>
      obtain rfl := (List.append_inj' hr rfl).1
      obtain rfl := Option.some.inj (hm.symm.trans hm')
      exact ⟨hstart, .inr ⟨hk, hc⟩⟩
  · rintro ⟨hstart, ⟨hk, rfl, rfl⟩ | ⟨hk, hc⟩⟩
    · exact .found hm hstart hk
    · exact .up hm hstart hk hc

theorem Node.Climb.above (h : root.Climb start p q s) : q <+: p ∧ q.length < p.length := by
  induction h with
  | found => exact ⟨List.prefix_append _ _, by simp⟩
  | up _ _ _ _ ih =>
    refine ⟨ih.1.trans (List.prefix_append _ _), ?_⟩
    rw [List.length_append]
    exact Nat.lt_add_right _ ih.2

theorem leadsTo_statementFrom? (h : root.LeadsTo n frames)
    (hd : statementFrom? start frames = some d) : root.LeadsTo d.focus d.frames := by
  induction frames generalizing n with
  | nil => cases hd
  | cons f frames ih =>
    rw [statementFrom?] at hd
    split at hd
    · cases hd
    · split at hd
      · cases hd
        exact h.2
      · exact ih h.2 hd

theorem statementFrom?_iff (h : root.LeadsTo n frames) :
    (∃ d, statementFrom? start frames = some d ∧ pathOf d.frames = q ∧ d.focus = s) ↔
      root.Climb start (pathOf frames) q s := by
  induction frames generalizing n with
  | nil =>
    constructor
    · rintro ⟨d, hd, -⟩
      cases hd
    · intro hc
      generalize hr : pathOf [] = r at hc
      cases hc <;> simp [pathOf] at hr
  | cons f frames ih =>
    rw [pathOf_cons, Node.climb_concat h.2.at?, statementFrom?, ← ih h.2]
    by_cases hstart : f.parent.start = start
    · by_cases hk : f.parent.kind = .expressionStatement
      · simp [hstart, hk, eq_comm]
      · simp [hstart, hk]
    · simp [hstart]

/-- The statement `prev` comes next before the one that the place `p` begins, comments aside: the
expression statement that a climb leads to stands behind it in one list of statements. -/
inductive Node.StandsBehind (root : Node) (p : List Nat) (start : Nat) (prev : Node) : Prop
  | intro {q : List Nat} {list s : Node} {before between after : List Node} :
    root.Climb start p (q ++ [(before ++ prev :: between).length]) s →
    root.at? q = some list → list.kind.holdsStatements →
    list.children = before ++ prev :: between ++ s :: after →
    (∀ m ∈ between, m.kind.isNamed → m.kind = .comment) → prev.kind.isStatement →
    StandsBehind root p start prev

theorem Node.StandsBehind.exists_at? (h : root.StandsBehind p start prev) :
    ∃ q j, root.at? (q ++ [j]) = some prev ∧ q <+: p ∧ q.length < p.length ∧
      prev.kind.isStatement := by
  cases h with
  | @intro q list s before between after hclimb hlist _ hchildren _ hk =>
    obtain ⟨hq, hlength⟩ := hclimb.above
    rw [List.length_append] at hlength
    refine ⟨q, before.length, ?_, (List.prefix_append _ _).trans hq,
      Nat.lt_of_add_right_lt hlength, hk⟩
    rw [at?_append, hlist, Option.bind_some, at?_cons, hchildren, List.append_assoc,
      List.getElem?_append_right (Nat.le_refl _), Nat.sub_self]
    rfl

theorem Kind.isNamed_of_isStatement {k : Kind} (h : k.isStatement) :
    k.isNamed ∧ k ≠ .comment := by
  revert h
  cases k <;> decide

theorem statementBefore?_cons (f : Frame) (frames : List Frame) :
    statementBefore? ⟨n, f :: frames⟩ = some prev ↔
      f.parent.kind.holdsStatements ∧ prev.kind.isStatement ∧
        ∃ before between, f.left.reverse = before ++ prev :: between ∧
          ∀ m ∈ between, m.kind.isNamed → m.kind = .comment := by
  have hparent : Cursor.parent? ⟨n, f :: frames⟩ = some ⟨f.parent, frames⟩ := rfl
  have hleft : Cursor.before ⟨n, f :: frames⟩ = f.left := rfl
  simp only [statementBefore?, hparent, hleft, Option.bind_eq_bind, Option.bind_some,
    Option.ite_none_right_eq_some, Option.bind_eq_some_iff, Option.some.injEq]
  refine and_congr_right fun _ ↦ ?_
  constructor
  · rintro ⟨m, hm, hk, rfl⟩
    obtain ⟨-, between, before, he, hbetween⟩ := List.find?_eq_some_iff_append.1 hm
    refine ⟨hk, before.reverse, between.reverse, by simp [he], fun x hx hnamed ↦ ?_⟩
    have hx := hbetween x (List.mem_reverse.1 hx)
    simpa [hnamed] using hx
  · rintro ⟨hk, before, between, he, hbetween⟩
    refine ⟨prev, List.find?_eq_some_iff_append.2 ⟨by simpa using Kind.isNamed_of_isStatement hk,
      between.reverse, before.reverse, ?_, fun x hx ↦ ?_⟩, hk, rfl⟩
    · rw [← List.reverse_inj, he]
      simp
    · have hx := hbetween x (List.mem_reverse.1 hx)
      rw [Bool.not_eq_true', decide_eq_false_iff_not]
      exact fun hboth ↦ hboth.2 (hx hboth.1)

/-- What the two loops find over the frames of a cursor is what stands there in the tree. -/
theorem statementBefore?_iff (h : root.LeadsTo n frames) :
    (statementFrom? start frames).bind statementBefore? = some prev ↔
      root.StandsBehind (pathOf frames) start prev := by
  rw [Option.bind_eq_some_iff]
  constructor
  · rintro ⟨⟨focus, dframes⟩, hd, hprev⟩
    have hleads := leadsTo_statementFrom? h hd
    have hclimb := (statementFrom?_iff h).1 ⟨_, hd, rfl, rfl⟩
    cases dframes with
    | nil => cases hprev
    | cons f dframes =>
      obtain ⟨hholds, hk, before, between, he, hbetween⟩ :=
        (statementBefore?_cons f dframes).1 hprev
      have hlength : f.left.length = (before ++ prev :: between).length := by
        rw [← he, List.length_reverse]
      rw [pathOf_cons, hlength] at hclimb
      have hchildren := hleads.1
      rw [he] at hchildren
      exact .intro hclimb hleads.2.at? hholds hchildren hbetween hk
  · rintro ⟨hclimb, hlist, hholds, hchildren, hbetween, hk⟩
    obtain ⟨⟨focus, dframes⟩, hd, hq, rfl⟩ := (statementFrom?_iff h).2 hclimb
    have hleads := leadsTo_statementFrom? h hd
    refine ⟨_, hd, ?_⟩
    cases dframes with
    | nil => simp [pathOf] at hq
    | cons f dframes =>
      rw [pathOf_cons] at hq
      obtain ⟨rfl, hlength⟩ := List.append_inj' hq rfl
      obtain rfl := Option.some.inj (hleads.2.at?.symm.trans hlist)
      have hleft := (List.append_inj (hleads.1.symm.trans hchildren) (by simpa using hlength)).1
      exact (statementBefore?_cons f dframes).2 ⟨hholds, hk, _, _, hleft, hbetween⟩

end TemplateSqueeze
