import Mathlib
import TemplateSqueeze.Proofs.Edit.Joint
import TemplateSqueeze.Proofs.Text.Lines

namespace TemplateSqueeze

variable {starts origins : List Nat} {startsLine : Nat → Bool} {points : Set Nat} {a i k : Nat}

/-- Output bytes that all origins can be told from: those behind the last of them run on from its
own origin, within one line. -/
structure Determines (starts origins : List Nat) (points : Set Nat) : Prop where
  first_mem : 0 < origins.length → 0 ∈ points
  start_mem : ∀ k ∈ starts, k < origins.length → k ∈ points
  runsOn : ∀ i x, origins[i]? = some x → ∃ a y, IsGreatest {k | k ∈ points ∧ k ≤ i} a ∧
    origins[a]? = some y ∧ x = y + (i - a) ∧ ∀ k ∈ starts, ¬ (a < k ∧ k ≤ i)

theorem determines_joints (hstarts : ∀ i, startsLine i ↔ i ∈ starts) (origins : List Nat) :
    Determines starts origins {a | a ∈ joints startsLine origins} where
  first_mem h := mem_joints.2 ⟨h, .inl rfl⟩
  start_mem k hk h := mem_joints.2 ⟨h, .inr (.inl ((hstarts k).2 hk))⟩
  runsOn i x hx := by
    obtain ⟨hi, -⟩ := List.getElem?_eq_some_iff.1 hx
    obtain ⟨a, ha, hle, hnone⟩ := exists_joint startsLine hi
    have hgreatest : IsGreatest {k | k ∈ joints startsLine origins ∧ k ≤ i} a := by
      refine ⟨⟨ha, hle⟩, ?_⟩
      rintro k ⟨hk, hki⟩
      by_contra hlt
      exact hnone k (Nat.lt_of_not_le hlt) hki hk
    have hrun (k : Nat) (hak : a < k) (hki : k ≤ i) := of_not_mem_joints
      (Nat.lt_of_le_of_lt hki hi) (hnone k hak hki)
    have hy := List.getElem?_eq_getElem (Nat.lt_of_le_of_lt hle hi)
    have hat := getElem?_origins_of_run hy (fun k hak hki ↦ (hrun k hak hki).2) (i - a) (by omega)
    rw [Nat.add_sub_cancel' hle, hx] at hat
    refine ⟨a, _, hgreatest, hy, Option.some.inj hat, ?_⟩
    rintro k hk ⟨hak, hki⟩
    have hline := (hrun k hak hki).1
    rw [(hstarts k).2 hk] at hline
    cases hline

theorem Determines.joint_mem (h : Determines starts origins points)
    (hstarts : ∀ i, startsLine i ↔ i ∈ starts) (ha : a ∈ joints startsLine origins) :
    a ∈ points := by
  obtain ⟨hlt, hfirst | hline | hbreak⟩ := mem_joints.1 ha
  · subst hfirst
    exact h.first_mem hlt
  · exact h.start_mem a ((hstarts a).1 hline) hlt
  · by_contra hout
    -- The same point is the last one for the byte before, so the origins run on here.
    obtain ⟨b, y, ⟨⟨hb, hba⟩, hgreatest⟩, hy, hx, -⟩ := h.runsOn a _ (List.getElem?_eq_getElem hlt)
    have hne : b ≠ a := by
      rintro rfl
      exact hout hb
    obtain ⟨c, z, ⟨⟨hc, hca⟩, hgreatest'⟩, hz, hx', -⟩ :=
      h.runsOn (a - 1) _ (List.getElem?_eq_getElem (by omega))
    obtain rfl : c = b := by
      apply Nat.le_antisymm
      · exact hgreatest ⟨hc, by omega⟩
      · exact hgreatest' ⟨hb, by omega⟩
    rw [hy] at hz
    cases hz
    apply hbreak _ _ (List.getElem?_eq_getElem (by omega)) (List.getElem?_eq_getElem hlt)
    omega

namespace LineTable

variable {x : LineTable} {n : Nat}

theorem mem_starts : n ∈ x.starts ↔ ∃ (k : Nat) (l : Line), x.lines[k]? = some l ∧ l.start = n := by
  rw [starts, List.mem_map]
  simp only [List.mem_iff_getElem?, Array.getElem?_toList]
  constructor
  · rintro ⟨l, ⟨k, hk⟩, rfl⟩
    exact ⟨k, l, hk, rfl⟩
  · rintro ⟨k, l, hk, rfl⟩
    exact ⟨l, ⟨k, hk⟩, rfl⟩

theorem start_le_start (hx : x.starts.Pairwise (· ≤ ·)) {j k : Nat} {l m : Line}
    (hl : x.lines[j]? = some l) (hm : x.lines[k]? = some m) (hjk : j ≤ k) : l.start ≤ m.start := by
  rcases Nat.lt_or_eq_of_le hjk with hlt | rfl
  · rw [← Array.getElem?_toList] at hl hm
    obtain ⟨hj, rfl⟩ := List.getElem?_eq_some_iff.1 hl
    obtain ⟨hk, rfl⟩ := List.getElem?_eq_some_iff.1 hm
    exact List.pairwise_iff_getElem.1 (List.pairwise_map.1 hx) j k hj hk hlt
  · rw [hl] at hm
    cases hm
    exact Nat.le_refl _

theorem startsLine_iff_mem_starts (hx : x.starts.Pairwise (· ≤ ·)) :
    x.startsLine n ↔ n ∈ x.starts := by
  rw [mem_starts]
  unfold startsLine
  constructor
  · intro h
    split at h
    · next l hl => exact ⟨_, l, hl, beq_iff_eq.1 h⟩
    · cases h
  · rintro ⟨k, l, hl, rfl⟩
    have hend : x.lines[x.lines.size]? = none := Array.getElem?_eq_none (Nat.le_refl _)
    obtain ⟨hlt, hle, hnext⟩ := search_spec (n := l.start) x.nonempty (Nat.le_refl _)
      (fun m hm ↦ start_le_start hx hm hl (Nat.zero_le k))
      (fun m hm ↦ by rw [hend] at hm; cases hm)
    have hfound := Array.getElem?_eq_getElem hlt
    have hk : k ≤ search x.lines l.start 0 x.lines.size := by
      by_contra hgt
      have hsucc : search x.lines l.start 0 x.lines.size + 1 < x.lines.size := by
        have hbound := (Array.getElem?_eq_some_iff.1 hl).1
        omega
      have hover := hnext _ (Array.getElem?_eq_getElem hsucc)
      have hmono := start_le_start hx (Array.getElem?_eq_getElem hsucc) hl (by omega)
      omega
    rw [lineAt, hfound]
    exact beq_iff_eq.2 (Nat.le_antisymm (hle _ hfound) (start_le_start hx hl hfound hk))

theorem pairwise_layout (start : Nat) (ts : List Text) :
    ((Line.layout start ts).map Line.start).Pairwise (· ≤ ·) ∧
      ∀ n ∈ (Line.layout start ts).map Line.start, start ≤ n := by
  induction ts generalizing start with
  | nil => exact ⟨.nil, nofun⟩
  | cons t ts ih =>
    obtain ⟨hsorted, hle⟩ := ih (start + t.size + 1)
    have hbehind (n : Nat) (hn : n ∈ (Line.layout (start + t.size + 1) ts).map Line.start) :
        start ≤ n := by
      have := hle n hn
      omega
    rw [Line.layout, List.map_cons]
    exact ⟨List.pairwise_cons.2 ⟨hbehind, hsorted⟩,
      List.forall_mem_cons.2 ⟨Nat.le_refl start, hbehind⟩⟩

theorem pairwise_starts (t : Text) : (ofText t).starts.Pairwise (· ≤ ·) :=
  (pairwise_layout 0 t.splitLines).1

end LineTable

/-- The joints are the least set of points that all origins can be told from, if lines start where
they are said to. They are offsets of the output, in order. -/
theorem joints_least (hstarts : ∀ i, startsLine i ↔ i ∈ starts) (origins : List Nat) :
    IsLeast {points | Determines starts origins points} {a | a ∈ joints startsLine origins} ∧
      (∀ a ∈ joints startsLine origins, a < origins.length) ∧
      (joints startsLine origins).Pairwise (· < ·) := by
  refine ⟨⟨determines_joints hstarts origins, ?_⟩, fun a ha ↦ (mem_joints.1 ha).1, pairwise_joints⟩
  intro points h a ha
  exact Determines.joint_mem h hstarts ha

theorem joints_least_twoLines :
    (∀ i, (LineTable.ofText "ab\ncd".toList).startsLine i ↔ i ∈ [0, 3]) ∧
    joints (LineTable.ofText "ab\ncd".toList).startsLine [0, 4, 5, 6, 7] = [0, 1, 3] ∧
    IsLeast {points | Determines [0, 3] [0, 4, 5, 6, 7] points} {a | a ∈ [0, 1, 3]} := by
  have hstarts : ∀ i, (LineTable.ofText "ab\ncd".toList).startsLine i ↔ i ∈ [0, 3] :=
    fun i ↦ LineTable.startsLine_iff_mem_starts (LineTable.pairwise_starts "ab\ncd".toList)
  have hjoints : joints (LineTable.ofText "ab\ncd".toList).startsLine [0, 4, 5, 6, 7] =
      [0, 1, 3] := by cbv
  have hleast := (joints_least hstarts [0, 4, 5, 6, 7]).1
  rw [hjoints] at hleast
  exact ⟨hstarts, hjoints, hleast⟩

end TemplateSqueeze
