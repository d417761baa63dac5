import TemplateSqueeze.Tree.Basic

namespace TemplateSqueeze

/-- One step of the way down: the parent, and the other children with the nearest first. -/
structure Frame where
  parent : Node
  left : List Node
  right : List Node

structure Cursor where
  focus : Node
  frames : List Frame

namespace Cursor

def atRoot (root : Node) : Cursor := ⟨root, []⟩

def firstChild? (c : Cursor) : Option Cursor :=
  match c.focus.children with
  | [] => none
  | n :: ns => some ⟨n, ⟨c.focus, [], ns⟩ :: c.frames⟩

def nextSibling? (c : Cursor) : Option Cursor :=
  match c.frames with
  | ⟨parent, left, n :: right⟩ :: frames => some ⟨n, ⟨parent, c.focus :: left, right⟩ :: frames⟩
  | _ => none

def parent? (c : Cursor) : Option Cursor :=
  match c.frames with
  | [] => none
  | f :: frames => some ⟨f.parent, frames⟩

def before (c : Cursor) : List Node :=
  match c.frames with
  | [] => []
  | f :: _ => f.left

def followingFrom? (focus : Node) : List Frame → Option Cursor
  | [] => none
  | ⟨parent, left, n :: right⟩ :: frames => some ⟨n, ⟨parent, focus :: left, right⟩ :: frames⟩
  | ⟨parent, _, []⟩ :: frames => followingFrom? parent frames

def following? (c : Cursor) : Option Cursor := followingFrom? c.focus c.frames

/-- By single moves: to the next sibling, or else up and on from there. -/
theorem following?_eq (c : Cursor) :
    c.following? = c.nextSibling?.or (c.parent?.bind following?) := by
  obtain ⟨focus, frames⟩ := c
  match frames with
  | [] => rfl
  | ⟨_, _, _ :: _⟩ :: _ => rfl
  | ⟨_, _, []⟩ :: _ => rfl

def pendingBehind : List Frame → Nat
  | [] => 0
  | f :: frames => Node.countAll f.right + pendingBehind frames

/-- The nodes still to come in a walk: the focus with all below it, and all behind it. -/
def pending (c : Cursor) : Nat := c.focus.count + pendingBehind c.frames

theorem pending_firstChild? {c d : Cursor} (h : c.firstChild? = some d) :
    d.pending < c.pending := by
  unfold firstChild? at h
  split at h
  · cases h
  · next n ns hc =>
    cases h
    simp only [pending, pendingBehind, Node.count_eq c.focus, hc, Node.countAll]
    omega

theorem pending_followingFrom? {n : Node} {frames : List Frame} {d : Cursor}
    (h : followingFrom? n frames = some d) :
    d.pending ≤ pendingBehind frames := by
  fun_induction followingFrom? n frames with
  | case1 => cases h
  | case2 =>
    cases h
    simp only [pending, pendingBehind, Node.countAll]
    omega
  | case3 _ _ _ _ ih =>
    have := ih h
    simp only [pendingBehind]
    omega

theorem pending_following? {c d : Cursor} (h : c.following? = some d) :
    d.pending < c.pending := by
  have h₁ := pending_followingFrom? h
  have h₂ := c.focus.count_pos
  unfold pending at h₁ ⊢
  omega

end Cursor

end TemplateSqueeze
