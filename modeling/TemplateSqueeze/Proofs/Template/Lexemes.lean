import TemplateSqueeze.Proofs.Template.Scan

namespace TemplateSqueeze.Template

variable {us : List Lexeme} {t : Text}

theorem lexemes_cons (c : Char) (t : Text) : lexemes (c :: t) = Lexeme.first c t ::
    lexemes ((c :: t).drop (Lexeme.first c t).text.length) := by
  rw [lexemes]

theorem exists_first_of_lexemes {t : Text} {u : Lexeme} {us : List Lexeme}
    (h : lexemes t = u :: us) : ∃ c r, t = c :: r ∧ u = Lexeme.first c r ∧
      lexemes ((c :: r).drop (Lexeme.first c r).text.length) = us := by
  cases t with
  | nil =>
    rw [lexemes] at h
    cases h
  | cons c r =>
    rw [lexemes_cons] at h
    obtain ⟨hu, hus⟩ := List.cons.inj h
    exact ⟨c, r, rfl, hu.symm, hus⟩

theorem flatMap_text_lexemes (t : Text) : (lexemes t).flatMap Lexeme.text = t := by
  fun_induction lexemes t with
  | case1 => rfl
  | case2 c t l ih =>
    rw [List.flatMap_cons, ih]
    exact Lexeme.first_append c t

def row (units : List Lexeme) : List Lexeme := units.takeWhile (·.kind ≠ .other)

def trail (row : List Lexeme) : List Lexeme := (row.reverse.takeWhile (·.kind ≠ .space)).reverse

theorem row_cons {u : Lexeme} (h : u.kind ≠ .other) (units : List Lexeme) :
    row (u :: units) = u :: row units := by
  simp [row, h]

theorem row_cons_of_other {u : Lexeme} (h : u.kind = .other) (units : List Lexeme) :
    row (u :: units) = [] := by
  simp [row, h]

theorem drop_row_cons {u : Lexeme} (h : u.kind ≠ .other) (units : List Lexeme) :
    (u :: units).drop (row (u :: units)).length = units.drop (row units).length := by
  rw [row_cons h, List.length_cons, List.drop_succ_cons]

theorem row_append_drop (us : List Lexeme) : row us ++ us.drop (row us).length = us := by
  rw [row, ← List.prefix_iff_eq_append]
  exact List.takeWhile_prefix _

theorem trail_append_drop_suffix (us : List Lexeme) :
    trail (row us) ++ us.drop (row us).length <:+ us := by
  have htrail : trail (row us) <:+ row us := by
    rw [← List.reverse_prefix, trail, List.reverse_reverse]
    exact List.takeWhile_prefix _
  obtain ⟨passed, hpassed⟩ := htrail
  exact ⟨passed, by rw [← List.append_assoc, hpassed, row_append_drop]⟩

theorem kind_of_head?_drop_row (us : List Lexeme) :
    ∀ u, (us.drop (row us).length).head? = some u → u.kind ≠ .space := by
  induction us with
  | nil => nofun
  | cons v us ih =>
    by_cases hv : v.kind = .other
    · intro u hu
      rw [row_cons_of_other hv] at hu
      cases hu
      rw [hv]
      decide
    · rwa [drop_row_cons hv]

theorem behindRun?_of_ne_space (h : ∀ u, us.head? = some u → u.kind ≠ .space) :
    behindRun? us = none := by
  cases us with
  | nil => rfl
  | cons u us => rw [behindRun?, if_neg fun hboth ↦ h u rfl hboth.1]

theorem kind_of_head?_append {ks : List Lexeme} (hk : ∀ u ∈ ks, u.kind = .continuation)
    (h : ∀ u, us.head? = some u → u.kind ≠ .space) :
    ∀ u, (ks ++ us).head? = some u → u.kind ≠ .space := by
  cases ks with
  | nil => exact h
  | cons u ks =>
    intro v hv
    cases hv
    rw [hk u List.mem_cons_self]
    decide

theorem kind_of_mem_row {u : Lexeme} (h : u ∈ row us) (hs : u.kind ≠ .space) :
    u.kind = .continuation := by
  have := List.all_eq_true.1
    (List.all_takeWhile (p := fun u : Lexeme ↦ decide (u.kind ≠ .other))) u h
  cases hk : u.kind <;> simp_all

theorem kind_of_mem_trail {u : Lexeme} (h : u ∈ trail (row us)) : u.kind = .continuation := by
  rw [trail, List.mem_reverse] at h
  refine kind_of_mem_row (List.mem_reverse.1 ((List.takeWhile_sublist _).mem h)) ?_
  have := List.all_eq_true.1 List.all_takeWhile u h
  exact of_decide_eq_true this

theorem kind_of_mem_row_of_lt {u : Lexeme} (h : u.kind = .space)
    (hlt : (row (u :: us)).countP (·.kind = .space) < 2) :
    ∀ v ∈ row us, v.kind = .continuation := by
  have hk : u.kind ≠ .other := by rw [h]; decide
  rw [row_cons hk, List.countP_cons_of_pos (by simpa using h)] at hlt
  have hnone : (row us).countP (·.kind = .space) = 0 := by omega
  rw [List.countP_eq_zero] at hnone
  exact fun v hv ↦ kind_of_mem_row hv (by simpa using hnone v hv)

theorem respelling?_eq (w : Text) (next : Option Char) : respelling? w next =
    if w = ['$'] ∧ next = some '\x7b' then some ['\\', '$']
    else if w = ['\\', '0'] ∧ next.any Char.isDigit then some ['\\', 'x', '0', '0'] else none := by
  unfold respelling?
  split
  · rfl
  · next c => simp
  · next hdollar hnull =>
    rw [if_neg fun h ↦ hdollar h.1 h.2, if_neg]
    rintro ⟨hw, hn⟩
    cases next with
    | none => cases hn
    | some c => exact hnull c hw rfl

theorem respelling?_none (unit : Text) : respelling? unit none = none := by
  unfold respelling?
  split <;> simp_all

theorem thinned_of_le {r : List Lexeme} (h : 2 ≤ r.countP (·.kind = .space)) :
    thinned r = trail r := if_pos h

theorem trail_append_space {u : Lexeme} (h : u.kind = .space) (r : List Lexeme) :
    trail (r ++ [u]) = [] := by
  simp [trail, h]

theorem trail_append_continuation {u : Lexeme} (h : u.kind = .continuation) (r : List Lexeme) :
    trail (r ++ [u]) = trail r ++ [u] := by
  simp [trail, h]

theorem Run.spaces_extend (run : Run) (offset : Nat) (t : Text) : (run.extend offset t).spaces =
    run.spaces + (row (lexemes t)).countP (·.kind = .space) := by
  fun_induction Run.extend run offset t with
  | case1 => rw [lexemes]; rfl
  | case2 run offset c t l rest next hl ih =>
    have hk : l.kind ≠ .other := by rw [hl]; decide
    rw [ih, lexemes_cons, row_cons hk, List.countP_cons_of_pos (by simpa using hl),
      Nat.add_right_comm]
    rfl
  | case3 run offset c t l rest next hl ih =>
    have hk : l.kind ≠ .other := by rw [hl]; decide
    have hs : l.kind ≠ .space := by rw [hl]; decide
    rw [ih, lexemes_cons, row_cons hk, List.countP_cons_of_neg (by simpa using hs)]
  | case4 run offset c t l hl =>
    rw [lexemes_cons, row_cons_of_other hl]
    rfl

/-- What a run leaves is what trails it, and all behind the row. The units that the run has passed
when it comes to `t` are `passed`. -/
theorem Run.lexemes_rest_extend {run : Run} (passed : List Lexeme) (offset : Nat)
    (h : lexemes run.rest = trail passed ++ lexemes t) : lexemes (run.extend offset t).rest =
      trail (passed ++ row (lexemes t)) ++ (lexemes t).drop (row (lexemes t)).length := by
  fun_induction Run.extend run offset t generalizing passed with
  | case1 run offset =>
    rw [h, lexemes]
    simp [row]
  | case2 run offset c t l rest next hl ih =>
    have hk : l.kind ≠ .other := by rw [hl]; decide
    rw [ih (passed ++ [l]) (by rw [trail_append_space hl]; rfl), lexemes_cons, drop_row_cons hk,
      row_cons hk, List.append_assoc]
    rfl
  | case3 run offset c t l rest next hl ih =>
    have hk : l.kind ≠ .other := by rw [hl]; decide
    have hr : lexemes run.rest = trail (passed ++ [l]) ++ lexemes rest := by
      rw [h, trail_append_continuation hl, lexemes_cons, List.append_assoc]
      rfl
    rw [ih (passed ++ [l]) hr, lexemes_cons, drop_row_cons hk, row_cons hk, List.append_assoc]
    rfl
  | case4 run offset c t l hl =>
    rw [h, lexemes_cons, row_cons_of_other hl, List.append_nil]
    rfl

theorem Run.of_space {c : Char} {t : Text} (h : (Lexeme.first c t).kind = .space) (offset : Nat)
    {run : Run}
    (hrun : run = Run.extend ⟨1, (c :: t).drop (Lexeme.first c t).text.length, offset⟩ offset
      ((c :: t).drop (Lexeme.first c t).text.length)) :
    run.spaces = (row (lexemes (c :: t))).countP (·.kind = .space) ∧
      lexemes run.rest = trail (row (lexemes (c :: t))) ++
        (lexemes (c :: t)).drop (row (lexemes (c :: t))).length := by
  have hk : (Lexeme.first c t).kind ≠ .other := by rw [h]; decide
  rw [lexemes_cons]
  generalize Lexeme.first c t = u at h hk hrun ⊢
  generalize (c :: t).drop u.text.length = rest at hrun ⊢
  have htrail : trail [u] = [] := trail_append_space h []
  constructor
  · rw [hrun, Run.spaces_extend, row_cons hk, List.countP_cons_of_pos (by simpa using h)]
    exact Nat.add_comm _ _
  · rw [hrun, drop_row_cons hk, row_cons hk]
    exact Run.lexemes_rest_extend [u] offset (by rw [htrail, List.nil_append])

theorem behindRun?_lexemes {c : Char} {t : Text} (h : (Lexeme.first c t).kind = .space)
    (offset : Nat) {run : Run}
    (hrun : run = Run.extend ⟨1, (c :: t).drop (Lexeme.first c t).text.length, offset⟩ offset
      ((c :: t).drop (Lexeme.first c t).text.length)) :
    behindRun? (lexemes (c :: t)) = if 2 ≤ run.spaces then run.rest.head? else none := by
  obtain ⟨hspaces, hrest⟩ := Run.of_space h offset hrun
  rw [hspaces]
  clear hrun hspaces
  rw [lexemes_cons] at hrest ⊢
  generalize (c :: t).drop (Lexeme.first c t).text.length = r at hrest ⊢
  generalize Lexeme.first c t = u at h hrest ⊢
  have hrow : (u :: lexemes r).takeWhile (·.kind ≠ .other) = row (u :: lexemes r) := rfl
  rw [behindRun?, hrow]
  by_cases hle : 2 ≤ (row (u :: lexemes r)).countP (·.kind = .space)
  · rw [if_pos ⟨h, hle⟩, if_pos hle, thinned_of_le hle, ← hrest, flatMap_text_lexemes]
  · rw [if_neg fun hboth ↦ hle hboth.2, if_neg hle]

theorem writeBefore_none (held : Option Held) : Held.writeBefore none held = Held.write held := by
  cases held with
  | none => rfl
  | some u => rw [Held.writeBefore, respelling?_none]; rfl

theorem squeezeUnits_cons {u : Lexeme} (h : u.kind ≠ .space) (us : List Lexeme) :
    squeezeUnits (u :: us) = u.respelled (behindRun? us) ++ squeezeUnits us := by
  rw [squeezeUnits, if_neg h]

theorem squeezeUnits_append {ks : List Lexeme} (hk : ∀ u ∈ ks, u.kind = .continuation)
    (h : ∀ u, us.head? = some u → u.kind ≠ .space) :
    squeezeUnits (ks ++ us) = ks.flatMap Lexeme.text ++ squeezeUnits us := by
  induction ks with
  | nil => rfl
  | cons u ks ih =>
    rw [List.forall_mem_cons] at hk
    have hu : u.kind ≠ .space := by rw [hk.1]; decide
    rw [List.cons_append, squeezeUnits_cons hu,
      behindRun?_of_ne_space (kind_of_head?_append hk.2 h), ih hk.2,
      Lexeme.respelled, respelling?_none, List.flatMap_cons, List.append_assoc]
    rfl

theorem squeezeUnits_space {u : Lexeme} (h : u.kind = .space) (us : List Lexeme) :
    squeezeUnits (u :: us) = (thinned (u :: row us)).flatMap Lexeme.text ++
      squeezeUnits (us.drop (row us).length) := by
  rw [squeezeUnits, if_pos h]
  rfl

theorem squeezeUnits_run {u : Lexeme} (h : u.kind = .space)
    (hle : 2 ≤ (row (u :: us)).countP (·.kind = .space)) : squeezeUnits (u :: us) =
      squeezeUnits (trail (row (u :: us)) ++ (u :: us).drop (row (u :: us)).length) := by
  have hk : u.kind ≠ .other := by rw [h]; decide
  rw [squeezeUnits_append (fun _ ↦ kind_of_mem_trail) (kind_of_head?_drop_row _),
    squeezeUnits_space h, ← row_cons hk, thinned_of_le hle, drop_row_cons hk]

theorem squeezeUnits_alone {u : Lexeme} (h : u.kind = .space)
    (hlt : (row (u :: us)).countP (·.kind = .space) < 2) :
    squeezeUnits (u :: us) = u.text ++ squeezeUnits us := by
  have hk : u.kind ≠ .other := by rw [h]; decide
  have hrow : squeezeUnits (row us ++ us.drop (row us).length) = _ :=
    squeezeUnits_append (kind_of_mem_row_of_lt h hlt) (kind_of_head?_drop_row us)
  rw [row_append_drop] at hrow
  rw [squeezeUnits_space h, ← row_cons hk, thinned, if_neg (Nat.not_le_of_lt hlt), row_cons hk,
    List.flatMap_cons, List.append_assoc, hrow]

/-- The scan writes what the list of units says: nothing it does depends on more than the unit that
it holds and the units to come. -/
theorem text_squeezeFrom_eq (held : Option Held) (offset : Nat) (t : Text) :
    (squeezeFrom held offset t).text =
      (Held.writeBefore (behindRun? (lexemes t)) held).text ++ squeezeUnits (lexemes t) := by
  fun_induction squeezeFrom held offset t with
  | case1 held offset =>
    have hbehind : behindRun? [] = none := rfl
    rw [lexemes, hbehind, writeBefore_none, squeezeUnits, List.append_nil]
  | case2 held offset c t l rest next hl run _ hspaces ih =>
    obtain ⟨hcount, hrest⟩ := Run.of_space hl next (rfl : run = _)
    rw [Segment.text_append, ih, behindRun?_lexemes hl next (rfl : run = _), if_pos hspaces, hrest]
    rw [hcount] at hspaces
    rw [lexemes_cons] at hspaces ⊢
    rw [squeezeUnits_run hl hspaces]
    rfl
  | case3 held offset c t l rest next hl run _ hspaces ih =>
    obtain ⟨hcount, -⟩ := Run.of_space hl next (rfl : run = _)
    rw [Segment.text_append, Segment.text_append, ih, behindRun?_lexemes hl next (rfl : run = _),
      if_neg hspaces, writeBefore_none, Segment.text_copy, List.append_assoc]
    rw [hcount] at hspaces
    rw [lexemes_cons] at hspaces ⊢
    rw [squeezeUnits_alone hl (Nat.lt_of_not_le hspaces)]
    rfl
  | case4 held offset c t l rest next hl ih =>
    have hbehind : behindRun? (lexemes (c :: t)) = none := by
      rw [lexemes_cons]
      exact behindRun?_of_ne_space fun u hu ↦ by cases hu; exact hl
    rw [Segment.text_append, ih, hbehind, writeBefore_none, lexemes_cons, squeezeUnits_cons hl,
      text_writeBefore]
    rfl

theorem text_squeezeFrom_none (offset : Nat) (t : Text) :
    (squeezeFrom none offset t).text = squeezeUnits (lexemes t) :=
  text_squeezeFrom_eq none offset t

end TemplateSqueeze.Template
