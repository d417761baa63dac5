import TemplateSqueeze.Proofs.Template.Lexemes

namespace TemplateSqueeze.Template

open Text

variable {raw a b m t : Text} {origin : Nat}

def unitAt? (raw : Text) (offset : Nat) : Option (LexemeKind × Nat) :=
  match raw.charAt? offset with
  | none => none
  | some c =>
    if c = ' ' then some (.space, 1)
    else if c = '\\' then
      (raw.drop? (offset + 1)).map fun rest ↦ ((escapeBody rest).1, 1 + (escapeBody rest).2.size)
    else some (.other, c.utf8Size)

theorem unitAt?_eq_some {i : Nat} {k : LexemeKind} {w : Nat} (h : unitAt? raw i = some (k, w)) :
    0 < w ∧ i < raw.size := by
  unfold unitAt? at h
  split at h
  · cases h
  · next c hc =>
    have hpos := c.utf8Size_pos
    have hsize := charAt?_lt_size hc
    refine ⟨?_, by omega⟩
    split at h
    · cases h
      exact Nat.one_pos
    · split at h
      · obtain ⟨rest, -, he⟩ := Option.map_eq_some_iff.1 h
        cases he
        exact Nat.lt_add_right _ Nat.one_pos
      · cases h
        exact hpos

/-- Reads on over spaces and continuations from the cursor: how many spaces there are, and where the
last of them ends. -/
def spacesAt? (raw : Text) (spaces stop cursor : Nat) : Option (Nat × Nat) :=
  if cursor < raw.size then
    match _h : unitAt? raw cursor with
    | none => none
    | some (.space, width) => spacesAt? raw (spaces + 1) (cursor + width) (cursor + width)
    | some (.continuation, width) => spacesAt? raw spaces stop (cursor + width)
    | some (.other, _) => some (spaces, stop)
  else some (spaces, stop)
termination_by raw.size - cursor
decreasing_by
  all_goals
    have := unitAt?_eq_some _h
    omega

theorem spacesAt?_of_unitAt? {cursor width : Nat} {kind : LexemeKind} (spaces stop : Nat) :
    unitAt? raw cursor = some (kind, width) → spacesAt? raw spaces stop cursor =
      match kind with
      | .space => spacesAt? raw (spaces + 1) (cursor + width) (cursor + width)
      | .continuation => spacesAt? raw spaces stop (cursor + width)
      | .other => some (spaces, stop) := by
  intro hu
  rw [spacesAt?, if_pos (unitAt?_eq_some hu).2]
  split
  · next h => rw [hu] at h; cases h
  · next h => rw [hu] at h; cases h; rfl
  · next h => rw [hu] at h; cases h; rfl
  · next h => rw [hu] at h; cases h; rfl

theorem le_of_spacesAt? {spaces stop cursor spaces' stop' : Nat} (hle : stop ≤ cursor)
    (h : spacesAt? raw spaces stop cursor = some (spaces', stop')) : stop ≤ stop' := by
  fun_induction spacesAt? raw spaces stop cursor with
  | case1 => cases h
  | case2 spaces stop cursor hlt width hu ih =>
    exact Nat.le_trans (Nat.le_trans hle (Nat.le_add_right _ _)) (ih (Nat.le_refl _) h)
  | case3 spaces stop cursor hlt width hu ih =>
    exact ih (Nat.le_trans hle (Nat.le_add_right _ _)) h
  | case4 => cases h; exact Nat.le_refl _
  | case5 => cases h; exact Nat.le_refl _

theorem lt_of_spacesAt? {cursor width spaces stop : Nat}
    (hu : unitAt? raw cursor = some (.space, width))
    (h : spacesAt? raw 0 cursor cursor = some (spaces, stop)) : cursor < stop := by
  obtain ⟨hpos, -⟩ := unitAt?_eq_some hu
  rw [spacesAt?_of_unitAt? _ _ hu] at h
  have := le_of_spacesAt? (Nat.le_refl _) h
  omega

def cut? (raw : Text) (origin keepFrom start : Nat) (unit : Option Text) (next : Option UInt8) :
    Option Segment :=
  if unit = some ['$'] ∧ next = some 0x7b then
    (raw.slice? keepFrom (start - 1)).map fun kept ↦
      .copy (origin + keepFrom) kept ++ .spell (origin + start - 1) ['\\', '$']
  else if unit = some ['\\', '0'] ∧ next.any (fun b ↦ 0x30 ≤ b ∧ b ≤ 0x39) then
    (raw.slice? keepFrom (start - 2)).map fun kept ↦
      .copy (origin + keepFrom) kept ++ .spell (origin + start - 2) ['\\', 'x', '0', '0']
  else (raw.slice? keepFrom start).map (.copy (origin + keepFrom))

/-- Sweeps the text from the cursor on. What lies between `keepFrom` and the cursor is still to be
copied, and `before` is where the unit before the cursor begins, unless that was part of a run;
`none` when a slice is out of range or cuts through a character. -/
def sweepFrom? (raw : Text) (origin keepFrom : Nat) (before : Option Nat) (cursor : Nat) :
    Option Segment :=
  if cursor < raw.size then
    match _hu : unitAt? raw cursor with
    | none => none
    | some (.space, _) =>
      match _hs : spacesAt? raw 0 cursor cursor with
      | none => none
      | some (spaces, stop) =>
        if 2 ≤ spaces then do
          let unit ← before.mapM (raw.slice? · cursor)
          let kept ← cut? raw origin keepFrom cursor unit raw.bytes[stop]?
          let rest ← sweepFrom? raw origin stop none stop
          return kept ++ rest
        else sweepFrom? raw origin keepFrom none stop
    | some (_, width) => sweepFrom? raw origin keepFrom (some cursor) (cursor + width)
  else (raw.slice? keepFrom raw.size).map (.copy (origin + keepFrom))
termination_by raw.size - cursor
decreasing_by
  · have := lt_of_spacesAt? _hu _hs
    have := unitAt?_eq_some _hu
    omega
  · have := lt_of_spacesAt? _hu _hs
    have := unitAt?_eq_some _hu
    omega
  · have := unitAt?_eq_some _hu
    omega

def sweep? (raw : Text) (origin : Nat) : Option Segment := sweepFrom? raw origin 0 none 0

theorem charAt?_append (a : Text) (c : Char) (t : Text) : (a ++ c :: t).charAt? a.size = some c :=
  charAt?_eq_some.2 ⟨a, t, rfl, rfl⟩

theorem unitAt?_append (a : Text) (c : Char) (t : Text) : unitAt? (a ++ c :: t) a.size =
    some ((Lexeme.first c t).kind, (Lexeme.first c t).text.size) := by
  rw [unitAt?, charAt?_append, Lexeme.first]
  simp only
  split
  · next hc => rw [hc]; rfl
  · split
    · next hc =>
      subst hc
      have hdrop : (a ++ '\\' :: t).drop? (a.size + 1) = some t := by
        refine drop?_eq_some.2 ⟨a ++ ['\\'], by simp, ?_⟩
        rw [size_append]
        rfl
      rw [hdrop]
      rfl
    · rfl

theorem spacesAt?_eq (run : Run) (ha : raw = a ++ t) (hb : raw = b ++ run.rest)
    (hoffset : run.offset = origin + b.size) : ∃ b' : Text,
    raw = b' ++ (run.extend (origin + a.size) t).rest ∧
    (run.extend (origin + a.size) t).offset = origin + b'.size ∧
    spacesAt? raw run.spaces b.size a.size =
      some ((run.extend (origin + a.size) t).spaces, b'.size) := by
  induction hn : t.length using Nat.strongRecOn generalizing a b t run with
  | _ n ih =>
    cases t with
    | nil =>
      refine ⟨b, ?_⟩
      rw [spacesAt?, Run.extend, if_neg (by simp [ha])]
      exact ⟨hb, hoffset, rfl⟩
    | cons c t =>
      have hu := unitAt?_append a c t
      have hlt := Lexeme.length_drop_first_lt c t
      rw [← ha] at hu
      rw [← Lexeme.first_append c t, ← List.append_assoc] at ha
      have hoff : origin + a.size + (Lexeme.first c t).text.size =
          origin + (a ++ (Lexeme.first c t).text).size := by
        rw [size_append, Nat.add_assoc]
      rw [spacesAt?_of_unitAt? _ _ hu, Run.extend]
      cases hk : (Lexeme.first c t).kind with
      | space =>
        simp only
        rw [hoff, ← size_append]
        exact ih _ (hn ▸ hlt) _ ha ha rfl rfl
      | continuation =>
        simp only
        rw [hoff, ← size_append]
        exact ih _ (hn ▸ hlt) run ha hb hoffset rfl
      | other => exact ⟨b, hb, hoffset, rfl⟩

theorem Run.extend_eq_self {run : Run} {offset : Nat}
    (h : (run.extend offset t).spaces ≤ run.spaces) : run.extend offset t = run := by
  fun_induction Run.extend run offset t with
  | case1 => rfl
  | case2 run offset c t l rest next hl ih =>
    rw [Run.spaces_extend] at h
    exact absurd h (by simp only; omega)
  | case3 run offset c t l rest next hl ih => exact ih h
  | case4 => rfl

def heldOf (offset : Nat) (unit : Option Text) : Option Held := unit.map (⟨·, offset⟩)

theorem write_heldOf (offset : Nat) (unit : Option Text) :
    Held.write (heldOf offset unit) = .copy offset (unit.getD []) := by
  cases unit <;> rfl

theorem copy_stretch (origin : Nat) (a m : Text) (unit : Option Text) (s : Segment) :
    Segment.copy (origin + a.size) m ++ (Held.write (heldOf (origin + (a ++ m).size) unit) ++ s) =
      .copy (origin + a.size) (m ++ unit.getD []) ++ s := by
  rw [write_heldOf, Segment.copy_append, size_append, Nat.add_assoc, List.append_assoc]

theorem slice?_between {r : Text} (h : raw = a ++ m ++ r) :
    raw.slice? a.size (a ++ m).size = some m :=
  slice?_eq_some.2 ⟨a, r, h, rfl, (size_append a m).symm⟩

theorem cut?_eq (origin : Nat) {unit : Option Text} {r gone rest : Text}
    (h : raw = a ++ m ++ unit.getD [] ++ r) (hr : raw = gone ++ rest) :
    cut? raw origin a.size (a ++ m ++ unit.getD []).size unit raw.bytes[gone.size]? =
      some (.copy (origin + a.size) m ++
        Held.writeBefore rest.head? (heldOf (origin + (a ++ m).size) unit)) := by
  have hbrace : raw.bytes[gone.size]? = some 0x7b ↔ rest.head? = some '\x7b' := by
    rw [hr]
    exact byteAt_eq_iff gone rest rfl (by decide)
  have hdigit : raw.bytes[gone.size]?.any (fun x ↦ 0x30 ≤ x ∧ x ≤ 0x39) =
      rest.head?.any Char.isDigit := by
    rw [hr]
    exact byteAt_any_digit gone rest
  unfold cut?
  simp only [hbrace, hdigit]
  cases unit with
  | none =>
    simp only [Option.getD_none, List.append_nil, reduceCtorEq, false_and, if_false] at h ⊢
    rw [slice?_between h, Option.map_some]
    exact congrArg some (List.append_nil _).symm
  | some w =>
    simp only [Option.getD_some, Option.some_inj] at h ⊢
    have hkept : raw.slice? a.size (a ++ m).size = some m :=
      slice?_between (r := w ++ r) (by rw [h, List.append_assoc])
    have hstart (k : Nat) (hk : w.size = k) : (a ++ m ++ w).size - k = (a ++ m).size := by
      rw [size_append (a ++ m) w, hk, Nat.add_sub_cancel]
    have horigin (k : Nat) (hk : w.size = k) :
        origin + (a ++ m ++ w).size - k = origin + (a ++ m).size := by
      rw [size_append (a ++ m) w, hk, ← Nat.add_assoc, Nat.add_sub_cancel]
    have hheld : heldOf (origin + (a ++ m).size) (some w) = some ⟨w, origin + (a ++ m).size⟩ := rfl
    rw [hheld, Held.writeBefore, respelling?_eq]
    split
    · next hw =>
      have hsize : w.size = 1 := by rw [hw.1]; rfl
      rw [hstart 1 hsize, horigin 1 hsize, hkept]
      rfl
    · split
      · next hw =>
        have hsize : w.size = 2 := by rw [hw.1]; rfl
        rw [hstart 2 hsize, horigin 2 hsize, hkept]
        rfl
      · have hall : raw.slice? a.size (a ++ m ++ w).size = some (m ++ w) := by
          rw [List.append_assoc]
          exact slice?_between (r := r) (by rw [h, ← List.append_assoc])
        rw [hall, Option.map_some, Segment.copy_append, size_append, Nat.add_assoc]

theorem sweepFrom?_of_ne_space {keepFrom cursor width : Nat} {before : Option Nat}
    {kind : LexemeKind} (hk : kind ≠ .space) (hu : unitAt? raw cursor = some (kind, width)) :
    sweepFrom? raw origin keepFrom before cursor =
      sweepFrom? raw origin keepFrom (some cursor) (cursor + width) := by
  rw [sweepFrom?, if_pos (unitAt?_eq_some hu).2]
  split
  · next h => rw [hu] at h; cases h
  · next h => rw [hu] at h; cases h; exact absurd rfl hk
  · next h => rw [hu] at h; cases h; rfl

theorem sweepFrom?_of_space {keepFrom cursor width spaces stop : Nat} {before : Option Nat}
    (hu : unitAt? raw cursor = some (.space, width))
    (hs : spacesAt? raw 0 cursor cursor = some (spaces, stop)) :
    sweepFrom? raw origin keepFrom before cursor =
      if 2 ≤ spaces then do
        let unit ← before.mapM (raw.slice? · cursor)
        let kept ← cut? raw origin keepFrom cursor unit raw.bytes[stop]?
        let rest ← sweepFrom? raw origin stop none stop
        return kept ++ rest
      else sweepFrom? raw origin keepFrom none stop := by
  conv_lhs => rw [sweepFrom?, if_pos (unitAt?_eq_some hu).2]
  split
  · next h => rw [hu] at h; cases h
  · split
    · next h => rw [hs] at h; cases h
    · next h => rw [hs] at h; cases h; rfl
  · next hk h =>
    rw [hu] at h
    cases h
    exact absurd rfl hk

/-- In front of `t` the sweep comes to what the scan does, if the stretch still to be copied ends
with the unit that the scan holds. -/
def Sweeps (raw : Text) (origin : Nat) (t : Text) : Prop := ∀ (a m : Text) (unit : Option Text)
  (g : Text), a ++ m ++ unit.getD [] = g → raw = g ++ t →
    sweepFrom? raw origin a.size (unit.map fun _ ↦ (a ++ m).size) g.size =
      some (.copy (origin + a.size) m ++
        squeezeFrom (heldOf (origin + (a ++ m).size) unit) (origin + g.size) t)

theorem sweeps_nil (raw : Text) (origin : Nat) : Sweeps raw origin [] := by
  intro a m unit g hg h
  rw [List.append_nil] at h
  have hall : raw.slice? a.size raw.size = some (m ++ unit.getD []) := by
    rw [h, ← hg, List.append_assoc]
    exact slice?_between (List.append_nil _).symm
  have hkept := copy_stretch origin a m unit []
  rw [List.append_nil, List.append_nil] at hkept
  rw [sweepFrom?, if_neg (by rw [h]; exact Nat.lt_irrefl _), hall, squeezeFrom, hkept]
  rfl

theorem sweeps_unit {c : Char} (h : (Lexeme.first c t).kind ≠ .space)
    (ih : Sweeps raw origin ((c :: t).drop (Lexeme.first c t).text.length)) :
    Sweeps raw origin (c :: t) := by
  intro a m unit g hg hraw
  have hu := unitAt?_append g c t
  rw [← hraw] at hu
  rw [← Lexeme.first_append c t, ← List.append_assoc] at hraw
  have hrest := ih a (m ++ unit.getD []) (some (Lexeme.first c t).text) _
    (by rw [← List.append_assoc, hg]; rfl) hraw
  rw [← List.append_assoc, hg, size_append, ← Nat.add_assoc] at hrest
  rw [sweepFrom?_of_ne_space h hu, squeezeFrom]
  simp only [if_neg h]
  rw [copy_stretch]
  exact hrest

theorem mapM_slice? {unit : Option Text} {g : Text} (hg : a ++ m ++ unit.getD [] = g)
    (h : raw = g ++ t) :
    (unit.map fun _ ↦ (a ++ m).size).mapM (raw.slice? · g.size) = some unit := by
  cases unit with
  | none => rfl
  | some w =>
    have hw : raw.slice? (a ++ m).size g.size = some w := by
      rw [← hg]
      exact slice?_between (by rw [h, ← hg])
    rw [Option.map_some, Option.mapM_some, hw]
    rfl

theorem sweeps_space {c : Char} (h : (Lexeme.first c t).kind = .space)
    (ih : ∀ s, s.length ≤ ((c :: t).drop (Lexeme.first c t).text.length).length →
      Sweeps raw origin s) : Sweeps raw origin (c :: t) := by
  intro a m unit g hg hraw
  have hu := unitAt?_append g c t
  rw [← hraw, h] at hu
  obtain ⟨stop, hstop, hoffset, hs⟩ := spacesAt?_eq ⟨0, c :: t, origin + g.size⟩ hraw hraw rfl
  rw [Run.extend] at hstop hoffset hs
  simp only [h] at hstop hoffset hs
  have hcut := hraw
  rw [← Lexeme.first_append c t, ← List.append_assoc] at hcut
  rw [sweepFrom?_of_space hu hs, squeezeFrom]
  simp only [if_pos h]
  generalize (c :: t).drop (Lexeme.first c t).text.length = rest at ih hstop hoffset hcut ⊢
  generalize Lexeme.first c t = l at h hstop hoffset hcut ⊢
  have hshorter := Run.length_rest_extend ⟨1, rest, origin + g.size + l.text.size⟩
    (origin + g.size + l.text.size) rest (Nat.le_refl _)
  have halone := @Run.extend_eq_self rest ⟨1, rest, origin + g.size + l.text.size⟩
    (origin + g.size + l.text.size)
  generalize Run.extend ⟨1, rest, origin + g.size + l.text.size⟩
    (origin + g.size + l.text.size) rest = run at hstop hoffset hshorter halone ⊢
  split
  · -- A run: the sweep goes on where its last space ends, and copies from there.
    have hkept := cut?_eq origin (r := c :: t) (by rw [hg]; exact hraw) hstop
    rw [hg] at hkept
    have hrest := ih _ hshorter stop [] none stop (by simp) hstop
    rw [Option.map_none] at hrest
    simp only [mapM_slice? hg hraw, hkept, hrest, hoffset, Option.bind_eq_bind, Option.bind_some,
      Option.pure_def]
    rw [List.append_assoc]
    rfl
  · next hle =>
    -- A lone space: all read over it is read again, as part of what is still to be copied.
    have hone := Nat.lt_of_not_le hle
    have hrest := ih rest (Nat.le_refl _) a (m ++ unit.getD [] ++ l.text) none _
      (by simp [← hg]) hcut
    have hwidth : stop.size = size (g ++ l.text) := by
      rw [halone (Nat.le_of_lt_succ hone)] at hoffset
      rw [size_append]
      simp only at hoffset
      omega
    have hl : Segment.copy (origin + a.size) m ++
        (Held.write (heldOf (origin + (a ++ m).size) unit) ++ .copy (origin + g.size) l.text) =
          .copy (origin + a.size) (m ++ unit.getD [] ++ l.text) := by
      rw [copy_stretch, Segment.copy_append (origin + a.size) (m ++ unit.getD []), ← hg,
        List.append_assoc a, size_append a, Nat.add_assoc]
    rw [hwidth, Nat.add_assoc, ← size_append, ← List.append_assoc, hl]
    exact hrest

theorem sweeps (raw : Text) (origin : Nat) (t : Text) : Sweeps raw origin t := by
  -- By the length of what is left: a run takes many units at once.
  induction hn : t.length using Nat.strongRecOn generalizing t with
  | _ n ih =>
    have ih' : ∀ s : Text, s.length < t.length → Sweeps raw origin s := fun s hs ↦
      ih s.length (hn ▸ hs) s rfl
    cases t with
    | nil => exact sweeps_nil raw origin
    | cons c t =>
      have hlt := Lexeme.length_drop_first_lt c t
      by_cases h : (Lexeme.first c t).kind = .space
      · exact sweeps_space h fun s hs ↦ ih' s (Nat.lt_of_le_of_lt hs hlt)
      · exact sweeps_unit h (ih' _ hlt)

theorem sweep?_eq (raw : Text) (origin : Nat) : sweep? raw origin = some (squeeze raw origin) :=
  sweeps raw origin raw [] [] none [] rfl rfl

theorem unitAt?_of_lexemes {passed units : List Lexeme} {u : Lexeme}
    (h : lexemes t = passed ++ u :: units) :
    unitAt? (a ++ t) (size (a ++ passed.flatMap Lexeme.text)) = some (u.kind, u.text.size) := by
  induction passed generalizing a t with
  | nil =>
    obtain ⟨c, t, rfl, rfl, -⟩ := exists_first_of_lexemes h
    rw [List.flatMap_nil, List.append_nil]
    exact unitAt?_append a c t
  | cons v passed ih =>
    obtain ⟨c, t, rfl, rfl, hunits⟩ := exists_first_of_lexemes h
    have hrest := ih (a := a ++ (Lexeme.first c t).text) hunits
    rwa [List.append_assoc, Lexeme.first_append, List.append_assoc] at hrest

/-- The sweep comes to its end on every text, takes no slice that is out of range or cuts through a
character, and writes what is said over the list of the units that it meets. -/
theorem sweep?_squeezeUnits (raw : Text) (origin : Nat) :
    sweep? raw origin = some (squeeze raw origin) ∧
      (squeeze raw origin).text = squeezeUnits (lexemes raw) ∧
      (lexemes raw).flatMap Lexeme.text = raw ∧
      ∀ passed u units, lexemes raw = passed ++ u :: units →
        unitAt? raw (size (passed.flatMap Lexeme.text)) = some (u.kind, u.text.size) := by
  refine ⟨sweep?_eq raw origin, ?_, flatMap_text_lexemes raw, fun _ _ _ h ↦ ?_⟩
  · exact text_squeezeFrom_none origin raw
  · exact unitAt?_of_lexemes (a := []) h

/-- What trails a run stands before the digit, so that the null escape keeps its spelling there. -/
example :
    squeezeUnits (lexemes "\\0 \\\n\\x20\\\r7\\0  7\\é$\\u\x7b020\x7d\\u\x7b20\x7d\x7b\\".toList) =
      "\\0\\\r7\\x007\\é\\$\x7b\\".toList := by cbv

end TemplateSqueeze.Template
