import TemplateSqueeze.Proofs.Text.Cut
import TemplateSqueeze.Proofs.Tree.Visits

namespace TemplateSqueeze

open Text

variable {α : Type} {source : Text} {a b c : Nat} {n m : Node} {ns ms : List Node} {p : List Nat}

namespace Node

/-- Nodes that lie one after the other between two offsets. -/
inductive Ordered : Nat → Nat → List Node → Prop
  | nil {a b : Nat} : a ≤ b → Ordered a b []
  | cons {a b : Nat} {n : Node} {ns : List Node} :
    a ≤ n.start → Ordered n.stop b ns → Ordered a b (n :: ns)

instance decidableOrdered (a b : Nat) : (ns : List Node) → Decidable (Ordered a b ns)
  | [] => decidable_of_iff (a ≤ b) ⟨.nil, fun h ↦ by cases h; assumption⟩
  | n :: ns =>
    have := decidableOrdered n.stop b ns
    decidable_of_iff (a ≤ n.start ∧ Ordered n.stop b ns)
      ⟨fun h ↦ .cons h.1 h.2, fun h ↦ by cases h; exact ⟨‹_›, ‹_›⟩⟩

/-- What every parser promises of its trees: ranges end on character boundaries of the source, and
children lie in order inside their parent. -/
def Ranged (source : Text) (tree : Node) : Prop :=
  tree.Everywhere fun n ↦
    (source.slice? n.start n.stop).isSome ∧ Ordered n.start n.stop n.children

/-- A call without a fault begins with its first token, never with the end of a line. -/
def CallsBegin (source : Text) (tree : Node) : Prop :=
  tree.Everywhere fun n ↦ n.kind = .call → n.faulty = false →
    (source.charAt? n.start).any isLineTerminator = false

def SubstitutionsInside (tree : Node) : Prop :=
  tree.Everywhere fun n ↦ n.kind = .template → ∀ c ∈ n.children, c.kind = .substitution →
    n.start < c.start ∧ c.stop < n.stop

structure WellFormed (source : Text) (tree : Node) : Prop where
  ranged : tree.Ranged source
  callsBegin : tree.CallsBegin source

structure Nested (source : Text) (tree : Node) : Prop where
  ranged : tree.Ranged source
  substitutionsInside : tree.SubstitutionsInside

instance (source : Text) (n : Node) : Decidable (Ranged source n) :=
  decidableEverywhere _ n

instance (source : Text) (n : Node) : Decidable (CallsBegin source n) :=
  decidableEverywhere _ n

instance (n : Node) : Decidable (SubstitutionsInside n) :=
  decidableEverywhere _ n

instance (source : Text) (n : Node) : Decidable (WellFormed source n) :=
  decidable_of_iff (n.Ranged source ∧ n.CallsBegin source)
    ⟨fun h ↦ ⟨h.1, h.2⟩, fun h ↦ ⟨h.1, h.2⟩⟩

instance (source : Text) (n : Node) : Decidable (Nested source n) :=
  decidable_of_iff (n.Ranged source ∧ n.SubstitutionsInside)
    ⟨fun h ↦ ⟨h.1, h.2⟩, fun h ↦ ⟨h.1, h.2⟩⟩

namespace Ranged

theorem slice?_isSome (h : Ranged source n) : (source.slice? n.start n.stop).isSome :=
  (Everywhere.iff.1 h).1.1

theorem ordered (h : Ranged source n) : Ordered n.start n.stop n.children :=
  (Everywhere.iff.1 h).1.2

theorem children (h : Ranged source n) : ∀ c ∈ n.children, Ranged source c :=
  (Everywhere.iff.1 h).2

theorem isBoundary (h : Ranged source n) :
    source.IsBoundary n.start ∧ source.IsBoundary n.stop := by
  obtain ⟨t, ht⟩ := Option.isSome_iff_exists.1 h.slice?_isSome
  exact isBoundary_of_slice? ht

theorem start_le_stop (h : Ranged source n) : n.start ≤ n.stop := by
  obtain ⟨t, ht⟩ := Option.isSome_iff_exists.1 h.slice?_isSome
  have h := size_of_slice? ht
  omega

theorem at? (h : Ranged source n) (hm : n.at? p = some m) : Ranged source m :=
  h.subtree hm

end Ranged

theorem WellFormed.at? (h : WellFormed source n) (hm : n.at? p = some m) :
    WellFormed source m where
  ranged := h.ranged.at? hm
  callsBegin := h.callsBegin.subtree hm

theorem Nested.at? (h : Nested source n) (hm : n.at? p = some m) : Nested source m where
  ranged := h.ranged.at? hm
  substitutionsInside := h.substitutionsInside.subtree hm

namespace Ordered

theorem le_trans (h : a ≤ b) (hs : Ordered b c ns) : Ordered a c ns := by
  cases hs with
  | nil h' => exact .nil (Nat.le_trans h h')
  | cons h' ht => exact .cons (Nat.le_trans h h') ht

theorem append (h : Ordered a b ns) (h' : Ordered b c ms) : Ordered a c (ns ++ ms) := by
  induction h with
  | nil hle => exact h'.le_trans hle
  | cons hle _ ih => exact .cons hle (ih h')

theorem bounds (h : Ordered a b ns) (hw : ∀ n ∈ ns, Ranged source n) :
    a ≤ b ∧ ∀ n ∈ ns, a ≤ n.start ∧ n.stop ≤ b := by
  induction h with
  | nil h => exact ⟨h, List.forall_mem_nil _⟩
  | @cons a b m ms h _ ih =>
    obtain ⟨hle, hms⟩ := ih fun n hn ↦ hw n (List.mem_cons_of_mem m hn)
    have hm := (hw m List.mem_cons_self).start_le_stop
    refine ⟨by omega, fun n hn ↦ ?_⟩
    rcases List.mem_cons.1 hn with rfl | hn
    · exact ⟨h, hle⟩
    · have := hms n hn
      omega

theorem upTo (h : Ordered a b ns) (hac : a ≤ c) (hc : ∀ n ∈ ns, n.stop ≤ c) : Ordered a c ns := by
  induction h with
  | nil => exact .nil hac
  | cons hle _ ih =>
    obtain ⟨hn, hns⟩ := List.forall_mem_cons.1 hc
    exact .cons hle (ih hn hns)

theorem sublist (h : Ordered a b ns) (hw : ∀ n ∈ ns, Ranged source n) (hs : ms.Sublist ns) :
    Ordered a b ms := by
  induction hs generalizing a with
  | slnil => exact h
  | @cons ms ns n _ ih =>
    cases h with
    | cons hle ht =>
      have hn := (hw n List.mem_cons_self).start_le_stop
      exact (ih ht fun m hm ↦ hw m (List.mem_cons_of_mem n hm)).le_trans (Nat.le_trans hle hn)
  | @cons_cons ms ns n _ ih =>
    cases h with
    | cons hle ht => exact .cons hle (ih ht fun m hm ↦ hw m (List.mem_cons_of_mem n hm))

end Ordered

end Node

open Node

theorem outermost_of_eq_some {rule : Node → Option α} {answer : α} (h : rule n = some answer) :
    outermost rule n = [(n, answer)] := by
  cases n
  rw [outermost, h]

theorem outermost_of_eq_none {rule : Node → Option α} (h : rule n = none) :
    outermost rule n = outermostAll rule n.children := by
  cases n
  rw [outermost, h]

theorem ordered_outermostAll {rule : Node → Option α} (h : Ordered a b ns)
    (hns : ∀ n ∈ ns, Ordered n.start n.stop ((outermost rule n).map Prod.fst)) :
    Ordered a b ((outermostAll rule ns).map Prod.fst) := by
  induction h with
  | nil h => exact .nil h
  | @cons a b n ns h _ ih =>
    rw [outermostAll, List.map_append]
    have hn := hns n List.mem_cons_self
    exact (hn.le_trans h).append (ih fun m hm ↦ hns m (List.mem_cons_of_mem n hm))

theorem ordered_outermost (rule : Node → Option α) (h : Ranged source n) :
    Ordered n.start n.stop ((outermost rule n).map Prod.fst) := by
  induction h with
  | @intro n hn _ ih =>
    cases hr : rule n with
    | some answer =>
      rw [outermost_of_eq_some hr]
      exact .cons (Nat.le_refl _) (.nil (Nat.le_refl _))
    | none =>
      rw [outermost_of_eq_none hr]
      exact ordered_outermostAll hn.2 ih

theorem ordered_walk (rule : Node → Option α) (h : Ranged source n) :
    Ordered n.start n.stop ((walk rule (.atRoot n)).map fun x ↦ x.1.focus) := by
  have ho := ordered_outermost rule h
  rw [← map_walk_atRoot, List.map_map] at ho
  exact ho

theorem exists_at?_of_mem_walk {rule : Node → Option α} {x : Cursor × α}
    (h : x ∈ walk rule (.atRoot n)) :
    rule x.1.focus = some x.2 ∧ ∃ p, n.at? p = some x.1.focus := by
  have hx := List.mem_map_of_mem (f := fun x ↦ (x.1.focus, x.2)) h
  rw [map_walk_atRoot] at hx
  exact exists_at?_of_mem_outermost hx

end TemplateSqueeze
