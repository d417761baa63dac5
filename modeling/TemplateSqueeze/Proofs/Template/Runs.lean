import TemplateSqueeze.Proofs.Template.Settled

namespace TemplateSqueeze.Template

open Text

variable {us vs a b front back run : List Lexeme} {u v : Lexeme} {t : Text} {c : Char}
  {held : Option Held} {origin offset n : Nat}

def extent (us : List Lexeme) : Nat := size (us.flatMap Lexeme.text)

@[simp] theorem extent_nil : extent [] = 0 := rfl

@[simp] theorem extent_cons (u : Lexeme) (us : List Lexeme) :
    extent (u :: us) = u.text.size + extent us := by
  rw [extent, List.flatMap_cons, size_append, extent]

@[simp] theorem extent_append (us vs : List Lexeme) :
    extent (us ++ vs) = extent us + extent vs := by
  rw [extent, List.flatMap_append, size_append, extent, extent]

theorem extent_concat (us : List Lexeme) (u : Lexeme) :
    extent (us ++ [u]) = extent us + u.text.size := by
  rw [extent_append, extent_cons, extent_nil, Nat.add_zero]

theorem extent_lexemes (t : Text) : extent (lexemes t) = t.size := by
  rw [extent, flatMap_text_lexemes]

/-- Spaces and continuations, from one space to another. -/
inductive IsRun : List Lexeme → Prop
  | mk {u v : Lexeme} {between : List Lexeme} : u.kind = .space →
    (∀ w ∈ between, w.kind ≠ .other) → v.kind = .space → IsRun (u :: (between ++ [v]))

theorem leadsToSpace_of_row (h : ∀ w ∈ us, w.kind ≠ .other) (hv : v.kind = .space)
    (vs : List Lexeme) : leadsToSpace (us ++ v :: vs) := by
  induction us with
  | nil => exact leadsToSpace_space hv
  | cons u us ih =>
    obtain ⟨hu, hus⟩ := List.forall_mem_cons.1 h
    rw [List.cons_append]
    cases hk : u.kind with
    | space => exact leadsToSpace_space hk
    | continuation =>
      rw [leadsToSpace_continuation hk]
      exact ih hus
    | other => exact absurd hk hu

theorem exists_of_leadsToSpace (h : leadsToSpace us) : ∃ ks v vs, us = ks ++ v :: vs ∧
    (∀ k ∈ ks, k.kind = .continuation) ∧ v.kind = .space := by
  induction us with
  | nil => cases h
  | cons u us ih =>
    cases hk : u.kind with
    | space => exact ⟨[], u, us, rfl, nofun, hk⟩
    | continuation =>
      rw [leadsToSpace_continuation hk] at h
      obtain ⟨ks, v, vs, rfl, hks, hv⟩ := ih h
      exact ⟨u :: ks, v, vs, rfl, List.forall_mem_cons.2 ⟨hk, hks⟩, hv⟩
    | other =>
      rw [leadsToSpace_other hk] at h
      cases h

theorem leadsToSpace_drop_row (us : List Lexeme) :
    leadsToSpace (us.drop (row us).length) = false := by
  induction us with
  | nil => rfl
  | cons u us ih =>
    by_cases hu : u.kind = .other
    · rw [row_cons_of_other hu]
      exact leadsToSpace_other hu
    · rw [drop_row_cons hu]
      exact ih

/-- Whether a unit goes, by the units before it and those behind it. -/
def LiesInRun (front : List Lexeme) (u : Lexeme) (back : List Lexeme) : Prop :=
  match u.kind with
  | .space => leadsToSpace front.reverse ∨ leadsToSpace back
  | .continuation => leadsToSpace front.reverse ∧ leadsToSpace back
  | .other => False

instance (front : List Lexeme) (u : Lexeme) (back : List Lexeme) :
    Decidable (LiesInRun front u back) := by
  unfold LiesInRun
  split <;> infer_instance

theorem liesInRun_space (h : u.kind = .space) :
    LiesInRun front u back ↔ leadsToSpace front.reverse ∨ leadsToSpace back := by
  rw [LiesInRun, h]

theorem liesInRun_continuation (h : u.kind = .continuation) :
    LiesInRun front u back ↔ leadsToSpace front.reverse ∧ leadsToSpace back := by
  rw [LiesInRun, h]

theorem not_liesInRun_other (h : u.kind = .other) : ¬ LiesInRun front u back := by
  rw [LiesInRun, h]
  exact not_false

theorem IsRun.liesInRun (h : IsRun (a ++ u :: b)) (front back : List Lexeme) :
    LiesInRun (front ++ a) u (b ++ back) := by
  generalize hrun : a ++ u :: b = run at h
  cases h with
  | @mk s v between hs hbetween hv =>
    cases a with
    | nil =>
      obtain ⟨rfl, rfl⟩ := List.cons.inj hrun
      rw [liesInRun_space hs, List.append_assoc]
      exact .inr (leadsToSpace_of_row hbetween hv back)
    | cons s' a =>
      rw [List.cons_append, List.cons.injEq] at hrun
      obtain ⟨rfl, hrun⟩ := hrun
      -- Read backwards, what stands before the unit comes to the first space of the run.
      have hbefore (ha : ∀ w ∈ a, w.kind ≠ .other) :
          leadsToSpace (front ++ s' :: a).reverse := by
        rw [List.reverse_append, List.reverse_cons, List.append_assoc]
        apply leadsToSpace_of_row _ hs
        intro w hw
        exact ha w (List.mem_reverse.1 hw)
      rcases List.eq_nil_or_concat b with rfl | ⟨b, v', rfl⟩
      · obtain ⟨rfl, hlast⟩ := List.append_inj' hrun rfl
        obtain rfl := List.singleton_inj.1 hlast
        exact (liesInRun_space hv).2 (.inl (hbefore hbetween))
      · rw [List.concat_eq_append, ← List.cons_append, ← List.append_assoc] at hrun
        obtain ⟨rfl, hlast⟩ := List.append_inj' hrun rfl
        obtain rfl := List.singleton_inj.1 hlast
        rw [List.forall_mem_append, List.forall_mem_cons] at hbetween
        obtain ⟨ha, hu, hb⟩ := hbetween
        have hbehind : leadsToSpace (b.concat v' ++ back) := by
          rw [List.concat_eq_append, List.append_assoc]
          exact leadsToSpace_of_row hb hv back
        cases hk : u.kind with
        | space => exact (liesInRun_space hk).2 (.inr hbehind)
        | continuation => exact (liesInRun_continuation hk).2 ⟨hbefore ha, hbehind⟩
        | other => exact absurd hk hu

theorem ne_other_of_continuation {ks : List Lexeme} (hks : ∀ k ∈ ks, k.kind = .continuation) :
    ∀ k ∈ ks, k.kind ≠ .other := by
  intro k hk
  rw [hks k hk]
  decide

theorem exists_of_leadsToSpace_reverse (h : leadsToSpace front.reverse) : ∃ front' s ks,
    front = front' ++ s :: ks ∧ s.kind = .space ∧ ∀ k ∈ ks, k.kind ≠ .other := by
  obtain ⟨ks, s, front', hsplit, hks, hs⟩ := exists_of_leadsToSpace h
  refine ⟨front'.reverse, s, ks.reverse, ?_, hs, ?_⟩
  · rw [← List.reverse_reverse front, hsplit]
    simp
  · intro k hk
    exact ne_other_of_continuation hks k (List.mem_reverse.1 hk)

theorem exists_isRun_of_liesInRun (h : LiesInRun front u back) : ∃ front' a b back',
    front = front' ++ a ∧ back = b ++ back' ∧ IsRun (a ++ u :: b) := by
  cases hk : u.kind with
  | space =>
    rcases (liesInRun_space hk).1 h with hf | hb
    · obtain ⟨front', s, ks, rfl, hs, hks⟩ := exists_of_leadsToSpace_reverse hf
      exact ⟨front', s :: ks, [], back, rfl, rfl, .mk hs hks hk⟩
    · obtain ⟨ks, v, back', rfl, hks, hv⟩ := exists_of_leadsToSpace hb
      refine ⟨front, [], ks ++ [v], back', (List.append_nil front).symm, ?_, ?_⟩
      · rw [List.append_assoc, List.singleton_append]
      · exact .mk hk (ne_other_of_continuation hks) hv
  | continuation =>
    obtain ⟨hf, hb⟩ := (liesInRun_continuation hk).1 h
    obtain ⟨front', s, ks, rfl, hs, hks⟩ := exists_of_leadsToSpace_reverse hf
    obtain ⟨ms, v, back', rfl, hms, hv⟩ := exists_of_leadsToSpace hb
    refine ⟨front', s :: ks, ms ++ [v], back', rfl, ?_, ?_⟩
    · rw [List.append_assoc, List.singleton_append]
    · have hrun : IsRun (s :: ((ks ++ u :: ms) ++ [v])) := by
        apply IsRun.mk hs _ hv
        rw [List.forall_mem_append, List.forall_mem_cons]
        refine ⟨hks, ?_, ne_other_of_continuation hms⟩
        rw [hk]
        decide
      rwa [List.append_assoc] at hrun
  | other => exact absurd h (not_liesInRun_other hk)

theorem liesInRun_iff : LiesInRun front u back ↔ ∃ front' a b back',
    front = front' ++ a ∧ back = b ++ back' ∧ IsRun (a ++ u :: b) := by
  constructor
  · exact exists_isRun_of_liesInRun
  · rintro ⟨front', a, b, back', rfl, rfl, hrun⟩
    exact hrun.liesInRun front' back'

theorem ne_other_of_mem_row (h : u ∈ row us) : u.kind ≠ .other := by
  intro hk
  have := kind_of_mem_row h (by rw [hk]; decide)
  rw [hk] at this
  cases this

theorem exists_append_trail (h : 0 < us.countP (·.kind = .space)) :
    ∃ body v, us = body ++ v :: trail us ∧ v.kind = .space := by
  have hsplit := List.takeWhile_append_dropWhile (p := fun u : Lexeme ↦ decide (u.kind ≠ .space))
    (l := us.reverse)
  have hhead := List.head?_dropWhile_not (fun u : Lexeme ↦ decide (u.kind ≠ .space)) us.reverse
  cases hdrop : us.reverse.dropWhile (fun u : Lexeme ↦ decide (u.kind ≠ .space)) with
  | nil =>
    rw [List.dropWhile_eq_nil_iff] at hdrop
    obtain ⟨w, hw, hspace⟩ := List.countP_pos_iff.1 h
    have hnone := of_decide_eq_true (hdrop w (List.mem_reverse.2 hw))
    exact absurd (of_decide_eq_true hspace) hnone
  | cons v body =>
    rw [hdrop] at hsplit hhead
    refine ⟨body.reverse, v, ?_, by simpa using hhead⟩
    have hback := congrArg List.reverse hsplit
    rw [List.reverse_append, List.reverse_cons, List.append_assoc, List.reverse_reverse] at hback
    exact hback.symm

theorem exists_isRun (h : u.kind = .space) (hle : 2 ≤ (row (u :: us)).countP (·.kind = .space)) :
    ∃ run, IsRun run ∧ u :: us = run ++ (trail (row (u :: us)) ++
      (u :: us).drop (row (u :: us)).length) := by
  have hk : u.kind ≠ .other := by rw [h]; decide
  obtain ⟨body, v, hbody, hv⟩ := exists_append_trail (Nat.lt_of_lt_of_le Nat.two_pos hle)
  have htrail : (trail (row (u :: us))).countP (·.kind = .space) = 0 := by
    rw [List.countP_eq_zero]
    intro w hw
    simp [kind_of_mem_trail hw]
  have hall := row_append_drop (u :: us)
  have hmem : ∀ w ∈ body, w.kind ≠ .other := by
    intro w hw
    have : w ∈ row (u :: us) := by
      rw [hbody]
      exact List.mem_append_left _ hw
    exact ne_other_of_mem_row this
  generalize trail (row (u :: us)) = passed at hbody htrail ⊢
  generalize (u :: us).drop (row (u :: us)).length = rest at hall ⊢
  rw [hbody] at hle hall
  cases body with
  | nil =>
    rw [List.nil_append, List.countP_cons, htrail] at hle
    split at hle <;> omega
  | cons s body =>
    have hs : s = u := by
      rw [row_cons hk] at hbody
      exact (List.cons.inj hbody).1.symm
    subst hs
    refine ⟨s :: (body ++ [v]), .mk h (List.forall_mem_cons.1 hmem).2 hv, ?_⟩
    rw [← hall]
    simp

theorem leadsToSpace_trail_append (us : List Lexeme) :
    leadsToSpace (trail (row us) ++ us.drop (row us).length) = false := by
  rw [leadsToSpace_append fun _ ↦ kind_of_mem_trail]
  exact leadsToSpace_drop_row us

theorem behindRun?_space (h : u.kind = .space) (us : List Lexeme) : behindRun? (u :: us) =
    if 2 ≤ (row (u :: us)).countP (·.kind = .space) then
      ((trail (row (u :: us)) ++ (u :: us).drop (row (u :: us)).length).flatMap Lexeme.text).head?
    else none := by
  have hrow : (u :: us).takeWhile (·.kind ≠ .other) = row (u :: us) := rfl
  rw [behindRun?, hrow]
  split
  · next hboth => rw [if_pos hboth.2, thinned_of_le hboth.2]
  · next hboth => rw [if_neg fun hle ↦ hboth ⟨h, hle⟩]

theorem behindRun?_eq_some (h : behindRun? us = some c) : ∃ run back, us = run ++ back ∧
    IsRun run ∧ leadsToSpace back = false ∧ (back.flatMap Lexeme.text).head? = some c := by
  cases us with
  | nil => cases h
  | cons u us =>
    by_cases hu : u.kind = .space
    · rw [behindRun?_space hu] at h
      split at h
      · next hle =>
        obtain ⟨run, hrun, hsplit⟩ := exists_isRun hu hle
        exact ⟨run, _, hsplit, hrun, leadsToSpace_trail_append _, h⟩
      · cases h
    · rw [behindRun?, if_neg fun hboth ↦ hu hboth.1] at h
      cases h

theorem IsRun.unbroken (h : IsRun run) : ∀ w ∈ run, w.kind ≠ .other := by
  cases h with
  | mk hu hbetween hv =>
    rw [List.forall_mem_cons, List.forall_mem_append, List.forall_mem_singleton, hu, hv]
    exact ⟨nofun, hbetween, nofun⟩

theorem row_append (h : ∀ w ∈ us, w.kind ≠ .other) (vs : List Lexeme) :
    row (us ++ vs) = us ++ row vs := by
  apply List.takeWhile_append_of_pos
  intro w hw
  exact decide_eq_true (h w hw)

theorem trail_append (h : ∀ v ∈ vs, v.kind = .continuation) (us : List Lexeme) :
    trail (us ++ vs) = trail us ++ vs := by
  rw [trail, List.reverse_append, List.takeWhile_append_of_pos, List.reverse_append,
    List.reverse_reverse, trail]
  intro v hv
  rw [h v (List.mem_reverse.1 hv)]
  decide

theorem IsRun.behindRun?_append (h : IsRun run) (hback : leadsToSpace back = false) :
    behindRun? (run ++ back) = (back.flatMap Lexeme.text).head? := by
  have hrow := row_append h.unbroken back
  have hkinds : ∀ w ∈ row back, w.kind = .continuation := by
    intro w hw
    apply kind_of_mem_row hw
    rw [leadsToSpace_eq_false, List.countP_eq_zero] at hback
    simpa using hback w hw
  cases h with
  | @mk u v between hu hbetween hv =>
    have hcount : 2 ≤ (row (u :: (between ++ [v]) ++ back)).countP (·.kind = .space) := by
      rw [hrow, List.cons_append, List.countP_cons_of_pos (by simpa using hu), List.countP_append,
        List.countP_append, List.countP_cons_of_pos (by simpa using hv)]
      omega
    have htrail : trail (row (u :: (between ++ [v]) ++ back)) = row back := by
      rw [hrow, trail_append hkinds, ← List.cons_append, trail_append_space hv, List.nil_append]
    have hrest : trail (row (u :: (between ++ [v]) ++ back)) ++
        (u :: (between ++ [v]) ++ back).drop (row (u :: (between ++ [v]) ++ back)).length =
          back := by
      rw [htrail, hrow, List.length_append, ← List.drop_drop, List.drop_left]
      exact row_append_drop back
    rw [List.cons_append] at hcount hrest ⊢
    rw [behindRun?_space hu, if_pos hcount, hrest]

def written (origin : Nat) (front : List Lexeme) (u : Lexeme) (back : List Lexeme) : Segment :=
  if LiesInRun front u back then []
  else Held.writeBefore (behindRun? back) (some ⟨u.text, origin + extent front⟩)

inductive Fate (origin : Nat) (front : List Lexeme) (u : Lexeme) (back : List Lexeme) :
    Segment → Prop
  | gone : LiesInRun front u back → Fate origin front u back []
  | copied : ¬ LiesInRun front u back → respelling? u.text (behindRun? back) = none →
    Fate origin front u back (.copy (origin + extent front) u.text)
  | respelled {w : Text} : ¬ LiesInRun front u back →
    respelling? u.text (behindRun? back) = some w →
    Fate origin front u back (.spell (origin + extent front) w)

theorem fate_written (origin : Nat) (front : List Lexeme) (u : Lexeme) (back : List Lexeme) :
    Fate origin front u back (written origin front u back) := by
  rw [written]
  split
  · next hin => exact .gone hin
  · next hin =>
    rw [Held.writeBefore]
    split
    · next w hw => exact .respelled hin hw
    · next hw => exact .copied hin hw

def writeUnits (origin : Nat) (front : List Lexeme) : List Lexeme → Segment
  | [] => []
  | u :: us => written origin front u us ++ writeUnits origin (front ++ [u]) us

theorem writeUnits_of_liesInRun (front back : List Lexeme)
    (h : ∀ a u b, us = a ++ u :: b → LiesInRun (front ++ a) u (b ++ back)) :
    writeUnits origin front (us ++ back) = writeUnits origin (front ++ us) back := by
  induction us generalizing front with
  | nil => rw [List.nil_append, List.append_nil]
  | cons u us ih =>
    have hu := h [] u us rfl
    rw [List.append_nil] at hu
    have hus := ih (front ++ [u]) fun a v b hsplit ↦ by
      have := h (u :: a) v b (by rw [hsplit, List.cons_append])
      rwa [← List.singleton_append, ← List.append_assoc] at this
    rw [List.cons_append, writeUnits, written, if_pos hu, List.nil_append, hus, List.append_assoc,
      List.singleton_append]

theorem IsRun.writeUnits_append (h : IsRun run) (origin : Nat) (front back : List Lexeme) :
    writeUnits origin front (run ++ back) = writeUnits origin (front ++ run) back := by
  apply writeUnits_of_liesInRun
  intro a u b hsplit
  rw [hsplit] at h
  exact h.liesInRun front back

theorem size_first (c : Char) (t : Text) : (Lexeme.first c t).text.size +
    size ((c :: t).drop (Lexeme.first c t).text.length) = size (c :: t) := by
  rw [← size_append, Lexeme.first_append]

theorem Run.offset_extend {run : Run} (h : run.offset + run.rest.size = n)
    (ht : offset + t.size = n) :
    (run.extend offset t).offset + (run.extend offset t).rest.size = n := by
  fun_induction Run.extend run offset t with
  | case1 => exact h
  | case2 run offset c t l rest next hl ih =>
    have hsize : l.text.size + size rest = size (c :: t) := size_first c t
    have hnext : next + size rest = n := by omega
    exact ih hnext hnext
  | case3 run offset c t l rest next hl ih =>
    have hsize : l.text.size + size rest = size (c :: t) := size_first c t
    have hnext : next + size rest = n := by omega
    exact ih h hnext
  | case4 => exact h

theorem Run.offset_eq {run : Run} {gone : List Lexeme}
    (h : run.offset + run.rest.size = offset + t.size)
    (hsplit : lexemes t = gone ++ lexemes run.rest) : run.offset = offset + extent gone := by
  have hextent := congrArg extent hsplit
  rw [extent_lexemes, extent_append, extent_lexemes] at hextent
  omega

def Parted (front back : List Lexeme) : Prop :=
  leadsToSpace front.reverse → leadsToSpace back = false

theorem Parted.not_liesInRun (h : Parted front (u :: us)) (hu : u.kind ≠ .space) :
    ¬ LiesInRun front u us := by
  cases hk : u.kind with
  | space => exact absurd hk hu
  | continuation =>
    rw [liesInRun_continuation hk]
    intro ⟨hf, hb⟩
    have := h hf
    rw [leadsToSpace_continuation hk, hb] at this
    cases this
  | other => exact not_liesInRun_other hk

theorem Parted.next (h : Parted front (u :: us)) (hu : u.kind ≠ .space) :
    Parted (front ++ [u]) us := by
  intro hf
  rw [List.reverse_append, List.reverse_singleton, List.singleton_append] at hf
  cases hk : u.kind with
  | space => exact absurd hk hu
  | continuation =>
    rw [leadsToSpace_continuation hk] at hf
    rw [← leadsToSpace_continuation hk]
    exact h hf
  | other =>
    rw [leadsToSpace_other hk] at hf
    cases hf

theorem behindRun?_of_not_leadsToSpace (h : leadsToSpace us = false) : behindRun? us = none := by
  by_contra hne
  rw [leadsToSpace_of_behindRun? hne] at h
  cases h

theorem written_alone (u : Lexeme) (hfront : leadsToSpace front.reverse = false)
    (hback : leadsToSpace back = false) :
    written origin front u back = .copy (origin + extent front) u.text := by
  have hstays : ¬ LiesInRun front u back := by
    unfold LiesInRun
    rw [hfront, hback]
    split <;> simp
  rw [written, if_neg hstays, behindRun?_of_not_leadsToSpace hback, writeBefore_none]
  rfl

/-- The scan writes what becomes of the units to come, and first the unit that it holds. -/
theorem squeezeFrom_eq_writeUnits (origin : Nat) (held : Option Held) (offset : Nat) (t : Text) :
    ∀ front, Parted front (lexemes t) → offset = origin + extent front → squeezeFrom held offset t =
      Held.writeBefore (behindRun? (lexemes t)) held ++ writeUnits origin front (lexemes t) := by
  fun_induction squeezeFrom held offset t with
  | case1 held offset =>
    intro front _ _
    have hbehind : behindRun? [] = none := rfl
    rw [lexemes, hbehind, writeBefore_none, writeUnits, List.append_nil]
  | case2 held offset c t l rest next hl run _ hspaces ih =>
    -- A run: nothing is held behind it, and no other run reaches over its end.
    intro front hparted hoffset
    obtain ⟨hcount, hrest⟩ := Run.of_space hl next (rfl : run = _)
    have hbehind := behindRun?_lexemes hl next (rfl : run = _)
    rw [if_pos hspaces] at hbehind
    rw [hcount, lexemes_cons] at hspaces
    obtain ⟨gone, hgone, hsplit⟩ := exists_isRun hl hspaces
    rw [← lexemes_cons, ← hrest] at hsplit
    have hend : run.offset = origin + extent (front ++ gone) := by
      have hsize : l.text.size + size rest = size (c :: t) := size_first c t
      have hnext : next + size rest = offset + size (c :: t) := by omega
      have htotal : run.offset + size run.rest = offset + size (c :: t) :=
        Run.offset_extend hnext hnext
      rw [Run.offset_eq htotal hsplit, extent_append, hoffset, Nat.add_assoc]
    have hparted' : Parted (front ++ gone) (lexemes run.rest) := by
      intro _
      rw [hrest]
      exact leadsToSpace_trail_append _
    rw [ih _ hparted' hend, hbehind, hsplit, hgone.writeUnits_append]
    rfl
  | case3 held offset c t l rest next hl run _ hspaces ih =>
    -- A lone space: it leads to no other one, neither behind it nor before it.
    intro front hparted hoffset
    obtain ⟨hcount, -⟩ := Run.of_space hl next (rfl : run = _)
    have hbehind := behindRun?_lexemes hl next (rfl : run = _)
    rw [if_neg hspaces] at hbehind
    rw [hcount, lexemes_cons] at hspaces
    have hleads : leadsToSpace (lexemes rest) = false :=
      (countP_row_space hl).1 (Nat.lt_of_not_le hspaces)
    have hfront : leadsToSpace front.reverse = false := by
      apply Bool.eq_false_iff.2
      intro hf
      have := hparted hf
      rw [lexemes_cons, leadsToSpace_space hl] at this
      cases this
    have hnext : next = origin + extent (front ++ [l]) := by
      rw [extent_concat, ← Nat.add_assoc, ← hoffset]
    rw [ih _ (fun _ ↦ hleads) hnext, hbehind, writeBefore_none, lexemes_cons, writeUnits,
      written_alone l hfront hleads, ← hoffset, List.append_assoc]
    rfl
  | case4 held offset c t l rest next hl ih =>
    intro front hparted hoffset
    rw [lexemes_cons] at hparted ⊢
    have hbehind : behindRun? (l :: lexemes rest) = none := by
      apply behindRun?_of_ne_space
      intro u hu
      cases hu
      exact hl
    have hnext : next = origin + extent (front ++ [l]) := by
      rw [extent_concat, ← Nat.add_assoc, ← hoffset]
    rw [ih _ (hparted.next hl) hnext, hbehind, writeBefore_none, writeUnits, written,
      if_neg (hparted.not_liesInRun hl), ← hoffset]

theorem squeeze_eq_writeUnits (raw : Text) (origin : Nat) :
    squeeze raw origin = writeUnits origin [] (lexemes raw) :=
  squeezeFrom_eq_writeUnits origin none origin raw [] nofun rfl

end TemplateSqueeze.Template
