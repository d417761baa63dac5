import TemplateSqueeze.Proofs.Template.LineEnds

namespace TemplateSqueeze.Template

open Text

variable {c d : Char} {t r s m : Text} {us : List Lexeme} {u : Lexeme}

def FixedDigits (count : Nat) (t : Text) : Prop :=
  count ≤ t.length ∧ (t.take count).all isHexDigit

instance (count : Nat) (t : Text) : Decidable (FixedDigits count t) :=
  inferInstanceAs (Decidable (_ ∧ _))

def BracedDigits : Text → Prop
  | '\x7b' :: t =>
    t.takeWhile isHexDigit ≠ [] ∧ (t.drop (t.takeWhile isHexDigit).length).head? = some '\x7d'
  | _ => False

instance (t : Text) : Decidable (BracedDigits t) := by
  unfold BracedDigits
  split <;> infer_instance

/-- Behind every escape by a code point stand its digits. -/
def DigitsFollow : List Lexeme → Prop
  | [] => True
  | u :: us =>
    (u.text = ['\\', 'x'] → FixedDigits 2 (us.flatMap Lexeme.text)) ∧
      (u.text = ['\\', 'u'] →
        FixedDigits 4 (us.flatMap Lexeme.text) ∨ BracedDigits (us.flatMap Lexeme.text)) ∧
      DigitsFollow us

instance : (us : List Lexeme) → Decidable (DigitsFollow us)
  | [] => .isTrue True.intro
  | _ :: us =>
    have := instDecidableDigitsFollow us
    inferInstanceAs (Decidable (_ ∧ _ ∧ _))

inductive CodeDigits : Char → Text → Prop
  | hex {ds : Text} : ds.length = 2 → ds.all isHexDigit → CodeDigits 'x' ds
  | unicode {ds : Text} : ds.length = 4 → ds.all isHexDigit → CodeDigits 'u' ds
  | braced {ds : Text} : ds.all isHexDigit → CodeDigits 'u' ('\x7b' :: (ds ++ ['\x7d']))

theorem FixedDigits.exists_append {count : Nat} (h : FixedDigits count t) :
    ∃ ds r, t = ds ++ r ∧ ds.length = count ∧ ds.all isHexDigit :=
  ⟨t.take count, t.drop count, (List.take_append_drop count t).symm,
    List.length_take_of_le h.1, h.2⟩

theorem BracedDigits.exists_append (h : BracedDigits t) :
    ∃ ds r, t = '\x7b' :: (ds ++ ['\x7d']) ++ r ∧ ds.all isHexDigit := by
  unfold BracedDigits at h
  split at h
  · next t =>
    obtain ⟨r, hr⟩ := List.head?_eq_some_iff.1 h.2
    have ht := List.takeWhile_append_dropWhile (p := isHexDigit) (l := t)
    have hdrop : (t.takeWhile isHexDigit ++ t.dropWhile isHexDigit).drop
        (t.takeWhile isHexDigit).length = t.dropWhile isHexDigit := List.drop_left
    rw [ht, hr] at hdrop
    rw [← hdrop] at ht
    exact ⟨t.takeWhile isHexDigit, r, by simp [ht], List.all_takeWhile⟩
  · cases h

theorem DigitsFollow.exists_codeDigits (h : DigitsFollow (u :: us)) (hd : d = 'x' ∨ d = 'u')
    (hu : u.text = ['\\', d]) : ∃ m r, CodeDigits d m ∧ us.flatMap Lexeme.text = m ++ r := by
  obtain ⟨hx, hcode, -⟩ := h
  rcases hd with rfl | rfl
  · obtain ⟨ds, r, he, hlen, hall⟩ := (hx hu).exists_append
    exact ⟨ds, r, .hex hlen hall, he⟩
  · rcases hcode hu with hfixed | hbraced
    · obtain ⟨ds, r, he, hlen, hall⟩ := hfixed.exists_append
      exact ⟨ds, r, .unicode hlen hall, he⟩
    · obtain ⟨ds, r, he, hall⟩ := hbraced.exists_append
      exact ⟨_, r, .braced hall, he⟩

theorem DigitsFollow.of_suffix {vs : List Lexeme} (h : DigitsFollow us) (hs : vs <:+ us) :
    DigitsFollow vs := by
  induction us with
  | nil => rwa [List.suffix_nil.1 hs]
  | cons u us ih =>
    rcases List.suffix_cons_iff.1 hs with rfl | hs
    · exact h
    · exact ih h.2.2 hs

theorem CodeDigits.copied (h : CodeDigits d m) : Copied m := by
  cases h with
  | hex _ hall => exact copied_digits hall
  | unicode _ hall => exact copied_digits hall
  | braced hall =>
    exact (copied_singleton (c := '\x7b') (by decide)).append
      ((copied_digits hall).append (copied_singleton (by decide)))

theorem escapeBody_of_bracedSpace? {e : Text} (h : bracedSpace? t = some e) :
    escapeBody t = (.space, e) := by
  simp only [escapeBody, h]

theorem CodeDigits.escapeBody_eq (h : CodeDigits d m)
    (hk : (escapeBody (d :: (m ++ r))).1 ≠ .space) (s : Text) :
    escapeBody (d :: (m ++ s)) = (.other, [d]) := by
  cases h with
  | hex hlen hall =>
    refine escapeBody_digits hall (fun hx ↦ hk ?_) (.inl ⟨rfl, hlen⟩) s
    rw [eq_replicate_append_of_mem hall (by rw [hx]; decide), hlen]
    rfl
  | unicode hlen hall =>
    refine escapeBody_digits hall (fun hx ↦ hk ?_) (.inr ⟨rfl, hlen⟩) s
    rw [eq_replicate_append_of_mem hall (by rw [hx]; decide), hlen]
    rfl
  | @braced ds hall =>
    have happend (s : Text) : 'u' :: ('\x7b' :: (ds ++ ['\x7d']) ++ s) =
        'u' :: '\x7b' :: (ds ++ '\x7d' :: s) := by simp
    rw [happend] at hk ⊢
    by_cases hs : namesSpace ds
    · have hb := bracedSpace?_digits hall r
      rw [if_pos hs] at hb
      rw [escapeBody_of_bracedSpace? hb] at hk
      exact absurd rfl hk
    · have hb := bracedSpace?_digits hall s
      rw [if_neg hs] at hb
      exact escapeBody_single hb (by decide) nofun
        (fun _ tail h ↦ nomatch (List.cons.inj h).1) nofun

theorem lexemes_escape {k : LexemeKind} {e : Text} (h : escapeBody (e ++ r) = (k, e)) :
    lexemes ('\\' :: (e ++ r)) = ⟨k, '\\' :: e⟩ :: lexemes r := by
  have hfirst : Lexeme.first '\\' (e ++ r) = ⟨(escapeBody (e ++ r)).1,
      '\\' :: (escapeBody (e ++ r)).2⟩ := rfl
  rw [lexemes_cons, hfirst, h, List.length_cons, List.drop_succ_cons, List.drop_left]

theorem lexemes_code (h : escapeBody (d :: r) = (.other, [d])) :
    lexemes ('\\' :: d :: r) = ⟨.other, ['\\', d]⟩ :: lexemes r :=
  lexemes_escape (e := [d]) h

theorem lexemes_return (h : r.head? ≠ some '\n') :
    lexemes ('\\' :: '\r' :: r) = ⟨.continuation, ['\\', '\r']⟩ :: lexemes r := by
  refine lexemes_escape (e := ['\r'])
    (escapeBody_single rfl (by decide) nofun nofun fun _ tail ht ↦ h ?_)
  exact congrArg List.head? ht

def Lexeme.Stable (u : Lexeme) : Prop := ∀ r, lexemes (u.text ++ r) = u :: lexemes r

theorem stable_char (h : c ≠ ' ' ∧ c ≠ '\\') : Lexeme.Stable ⟨.other, [c]⟩ := by
  intro r
  have hfirst : Lexeme.first c r = ⟨.other, [c]⟩ := by
    rw [Lexeme.first, if_neg h.1, if_neg h.2]
  rw [List.singleton_append, lexemes_cons, hfirst]
  rfl

theorem stable_escape {k : LexemeKind} {e : Text} (h : ∀ r, escapeBody (e ++ r) = (k, e)) :
    Lexeme.Stable ⟨k, '\\' :: e⟩ :=
  fun r ↦ lexemes_escape (h r)

/-- An escape depends on what follows only if it is one by a code point, an escaped return, or a
backslash with nothing behind it. -/
theorem escapeBody_cases (t : Text) :
    (∀ r, escapeBody ((escapeBody t).2 ++ r) = escapeBody t) ∨ t = [] ∨
      (∃ r, t = '\r' :: r ∧ r.head? ≠ some '\n') ∨
      ∃ d r, t = d :: r ∧ (d = 'x' ∨ d = 'u') ∧ escapeBody t = (.other, [d]) := by
  generalize he : escapeBody t = b
  unfold escapeBody at he
  split at he
  · next e _ hspace =>
    subst he
    obtain ⟨ds, r, rfl, -, hs, -⟩ := bracedSpace?_eq_some hspace
    refine .inl fun r ↦ escapeBody_of_bracedSpace? ?_
    have hd := bracedSpace?_digits (all_of_namesSpace hs) r
    rw [if_pos hs] at hd
    simpa using hd
  · subst he
    exact .inl fun _ ↦ rfl
  · subst he
    exact .inl fun _ ↦ rfl
  · subst he
    exact .inl fun _ ↦ rfl
  · subst he
    exact .inl fun _ ↦ rfl
  · next c r hspace _ _ hpair _ =>
    -- One character is all of the escape, unless it could be longer with what comes next.
    subst he
    by_cases hcode : c = 'x' ∨ c = 'u'
    · refine .inr (.inr (.inr ⟨c, r, rfl, hcode, ?_⟩))
      rcases hcode with rfl | rfl <;> rfl
    · by_cases hr : c = '\r'
      · subst hr
        refine .inr (.inr (.inl ⟨r, rfl, fun hfeed ↦ ?_⟩))
        obtain ⟨r, rfl⟩ := List.head?_eq_some_iff.1 hfeed
        exact hpair r rfl rfl
      · refine .inl fun s ↦ escapeBody_single (bracedSpace?_eq_none_of_ne ?_) ?_ ?_ ?_ ?_
        · simpa using fun h ↦ absurd (Or.inr h) hcode
        · exact hspace
        · exact fun h ↦ absurd (.inl h) hcode
        · exact fun h ↦ absurd (.inr h) hcode
        · exact fun h ↦ absurd h hr
  · exact .inr (.inl rfl)

def leadsToSpace : List Lexeme → Bool
  | [] => false
  | u :: us =>
    match u.kind with
    | .space => true
    | .continuation => leadsToSpace us
    | .other => false

def RunFree : List Lexeme → Prop
  | [] => True
  | u :: us => (u.kind = .space → leadsToSpace us = false) ∧ RunFree us

theorem leadsToSpace_space (h : u.kind = .space) : leadsToSpace (u :: us) = true := by
  rw [leadsToSpace, h]

theorem leadsToSpace_continuation (h : u.kind = .continuation) :
    leadsToSpace (u :: us) = leadsToSpace us := by
  rw [leadsToSpace, h]

theorem leadsToSpace_other (h : u.kind = .other) : leadsToSpace (u :: us) = false := by
  rw [leadsToSpace, h]

theorem leadsToSpace_append {ks : List Lexeme} (hk : ∀ v ∈ ks, v.kind = .continuation) :
    leadsToSpace (ks ++ us) = leadsToSpace us := by
  induction ks with
  | nil => rfl
  | cons v ks ih =>
    rw [List.forall_mem_cons] at hk
    rw [List.cons_append, leadsToSpace_continuation hk.1, ih hk.2]

theorem RunFree.of_append {vs : List Lexeme} (h : RunFree (vs ++ us)) : RunFree us := by
  induction vs with
  | nil => exact h
  | cons v vs ih => exact ih h.2

theorem RunFree.append_of_other {vs : List Lexeme} (h : RunFree us)
    (hv : ∀ v ∈ vs, v.kind = .other) : RunFree (vs ++ us) := by
  induction vs with
  | nil => exact h
  | cons v vs ih =>
    rw [List.forall_mem_cons] at hv
    exact ⟨fun hs ↦ absurd (hv.1.symm.trans hs) nofun, ih hv.2⟩

theorem leadsToSpace_eq_false :
    leadsToSpace us = false ↔ (row us).countP (·.kind = .space) = 0 := by
  induction us with
  | nil => exact iff_of_true rfl rfl
  | cons u us ih =>
    cases hk : u.kind with
    | space =>
      rw [leadsToSpace_space hk, row_cons (by rw [hk]; decide),
        List.countP_cons_of_pos (by simp [hk])]
      exact ⟨nofun, nofun⟩
    | continuation =>
      rw [leadsToSpace_continuation hk, row_cons (by rw [hk]; decide),
        List.countP_cons_of_neg (by simp [hk]), ih]
    | other =>
      rw [leadsToSpace_other hk, row_cons_of_other hk, List.countP_nil]
      exact iff_of_true rfl rfl

theorem countP_row_space (h : u.kind = .space) : (row (u :: us)).countP (·.kind = .space) < 2 ↔
    leadsToSpace us = false := by
  rw [leadsToSpace_eq_false, row_cons (by rw [h]; decide), List.countP_cons_of_pos (by simp [h])]
  omega

theorem RunFree.behindRun? (h : RunFree us) : behindRun? us = none := by
  cases us with
  | nil => rfl
  | cons u us =>
    rw [Template.behindRun?, if_neg]
    rintro ⟨hk, hle⟩
    exact Nat.not_lt_of_le hle ((countP_row_space hk).2 (h.1 hk))

theorem RunFree.squeezeUnits_eq (h : RunFree us) : squeezeUnits us = us.flatMap Lexeme.text := by
  induction us with
  | nil => rw [squeezeUnits, List.flatMap_nil]
  | cons u us ih =>
    rw [List.flatMap_cons, ← ih h.2]
    by_cases hk : u.kind = .space
    · exact squeezeUnits_alone hk ((countP_row_space hk).2 (h.1 hk))
    · rw [squeezeUnits_cons hk, h.2.behindRun?, Lexeme.respelled, respelling?_none]
      rfl

theorem leadsToSpace_of_behindRun? (h : behindRun? us ≠ none) : leadsToSpace us = true := by
  cases us with
  | nil => exact absurd rfl h
  | cons u us =>
    rw [behindRun?] at h
    exact leadsToSpace_space (Classical.byContradiction fun hk ↦ h (if_neg fun hboth ↦ hk hboth.1))

/-- Squeezed and read anew, a text has no run, and no space comes to the front of it. -/
structure Settles (t : Text) : Prop where
  runFree : RunFree (lexemes (squeezeUnits (lexemes t)))
  leads : leadsToSpace (lexemes (squeezeUnits (lexemes t))) → leadsToSpace (lexemes t)

theorem settles_nil : Settles [] := by
  have hnil : lexemes (squeezeUnits (lexemes [])) = [] := by
    rw [lexemes, squeezeUnits, lexemes]
  constructor
  · rw [hnil]
    exact True.intro
  · rw [hnil]
    exact fun h ↦ absurd h Bool.false_ne_true

theorem settles_of_others {vs : List Lexeme} (hne : vs ≠ []) (hv : ∀ v ∈ vs, v.kind = .other)
    (ht : lexemes (squeezeUnits (lexemes t)) = vs ++ lexemes (squeezeUnits (lexemes r)))
    (hr : Settles r) : Settles t := by
  obtain ⟨v, vs, rfl⟩ := List.exists_cons_of_ne_nil hne
  constructor
  · rw [ht]
    exact hr.runFree.append_of_other hv
  · rw [ht, List.cons_append, leadsToSpace_other (hv v List.mem_cons_self)]
    exact nofun

theorem settles_continuation {v : Lexeme} (hu : u.kind = .continuation)
    (hv : v.kind = .continuation) (hunits : lexemes t = u :: lexemes r)
    (ht : lexemes (squeezeUnits (lexemes t)) = v :: lexemes (squeezeUnits (lexemes r)))
    (hr : Settles r) : Settles t := by
  constructor
  · rw [ht]
    exact ⟨fun hs ↦ absurd (hv.symm.trans hs) nofun, hr.runFree⟩
  · rw [ht, hunits, leadsToSpace_continuation hu, leadsToSpace_continuation hv]
    exact hr.leads

theorem exists_others_of_respelling? {w w' : Text} {next : Option Char}
    (h : respelling? w next = some w') : ∃ vs : List Lexeme, vs ≠ [] ∧
      (∀ v ∈ vs, v.kind = .other) ∧ ∀ s, lexemes (w' ++ s) = vs ++ lexemes s := by
  have hzero : Lexeme.Stable ⟨.other, ['0']⟩ := stable_char (by decide)
  obtain ⟨c, -, hc⟩ := respelling?_eq_some_iff.1 h
  cases hc with
  | dollar => exact ⟨[⟨.other, ['\\', '$']⟩], nofun, by decide, stable_escape fun _ ↦ rfl⟩
  | null =>
    refine ⟨[⟨.other, ['\\', 'x']⟩, ⟨.other, ['0']⟩, ⟨.other, ['0']⟩], nofun, by decide, ?_⟩
    intro s
    have hx : lexemes ('\\' :: (['x'] ++ '0' :: '0' :: s)) = _ := lexemes_escape rfl
    exact hx.trans (congrArg _ ((hzero ('0' :: s)).trans (congrArg _ (hzero s))))

theorem settles_unit (hu : u.kind ≠ .space) (ht : lexemes t = u :: lexemes r)
    (hread : lexemes (u.text ++ squeezeUnits (lexemes r)) = u :: lexemes (squeezeUnits (lexemes r)))
    (hr : Settles r) : Settles t := by
  have hsqueezed : squeezeUnits (lexemes t) =
      u.respelled (behindRun? (lexemes r)) ++ squeezeUnits (lexemes r) := by
    rw [ht, squeezeUnits_cons hu]
  rw [Lexeme.respelled] at hsqueezed
  cases hw : respelling? u.text (behindRun? (lexemes r)) with
  | none =>
    rw [hw, Option.getD_none] at hsqueezed
    cases hk : u.kind with
    | space => exact absurd hk hu
    | continuation =>
      exact settles_continuation hk hk ht (by rw [hsqueezed, hread]) hr
    | other =>
      exact settles_of_others (List.cons_ne_nil u []) (by simp [hk]) (by rw [hsqueezed, hread]; rfl)
        hr
  | some w =>
    rw [hw, Option.getD_some] at hsqueezed
    obtain ⟨vs, hne, hv, hunits⟩ := exists_others_of_respelling? hw
    exact settles_of_others hne hv (by rw [hsqueezed, hunits]) hr

theorem settles_code {d : Char} (hm : CodeDigits d m)
    (hk : (escapeBody (d :: (m ++ r))).1 ≠ .space) (hr : Settles (m ++ r)) :
    Settles ('\\' :: d :: (m ++ r)) := by
  have hread (s : Text) :
      lexemes ('\\' :: d :: (m ++ s)) = ⟨.other, ['\\', d]⟩ :: lexemes (m ++ s) :=
    lexemes_escape (e := [d]) (hm.escapeBody_eq hk s)
  obtain ⟨o, ho⟩ := hm.copied 0 r
  rw [text_squeezeFrom_none, text_squeezeFrom_none] at ho
  refine settles_unit (u := ⟨.other, ['\\', d]⟩) nofun (hread r) ?_ hr
  rw [ho]
  exact hread _

theorem settles_return (hne : r.head? ≠ some '\n') (hr : Settles r) :
    Settles ('\\' :: '\r' :: r) := by
  have hsqueezed : squeezeUnits (lexemes ('\\' :: '\r' :: r)) =
      ['\\', '\r'] ++ squeezeUnits (lexemes r) := by
    rw [lexemes_return hne, squeezeUnits_cons (u := ⟨.continuation, ['\\', '\r']⟩) nofun]
    rfl
  by_cases hfeed : (squeezeUnits (lexemes r)).head? = some '\n'
  · -- The return takes in a line feed; a run stood between the two, so a space came first before.
    have hrun : behindRun? (lexemes r) = some '\n' := by
      rw [← head?_squeezeFrom_eq_feed hne 0, text_squeezeFrom_none]
      exact hfeed
    obtain ⟨s, hs⟩ := List.head?_eq_some_iff.1 hfeed
    have hpair : lexemes (squeezeUnits (lexemes ('\\' :: '\r' :: r))) =
        ⟨.continuation, ['\\', '\r', '\n']⟩ :: lexemes s := by
      rw [hsqueezed, hs]
      exact lexemes_escape (e := ['\r', '\n']) rfl
    have hline : lexemes (squeezeUnits (lexemes r)) = [⟨.other, ['\n']⟩] ++ lexemes s := by
      rw [hs]
      exact stable_char (c := '\n') (by decide) s
    have hfree : RunFree (lexemes s) := (hline ▸ hr.runFree).of_append
    constructor
    · rw [hpair]
      exact ⟨nofun, hfree⟩
    · intro _
      rw [lexemes_return hne, leadsToSpace_continuation rfl]
      exact leadsToSpace_of_behindRun? (by rw [hrun]; exact nofun)
  · exact settles_unit (u := ⟨.continuation, ['\\', '\r']⟩) nofun (lexemes_return hne)
      (lexemes_return hfeed) hr

theorem settles_alone (hu : u.kind = .space) (hs : u.Stable) (ht : lexemes t = u :: lexemes r)
    (hlt : (row (lexemes t)).countP (·.kind = .space) < 2) (hr : Settles r) : Settles t := by
  have hsqueezed :
      lexemes (squeezeUnits (lexemes t)) = u :: lexemes (squeezeUnits (lexemes r)) := by
    rw [ht] at hlt ⊢
    rw [squeezeUnits_alone hu hlt, hs]
  constructor
  · rw [hsqueezed]
    rw [ht, countP_row_space hu] at hlt
    refine ⟨fun _ ↦ Bool.eq_false_iff.2 fun hleads ↦ ?_, hr.runFree⟩
    rw [hr.leads hleads] at hlt
    cases hlt
  · intro _
    rw [ht, leadsToSpace_space hu]

theorem settles_run (hu : u.kind = .space) (ht : lexemes t = u :: lexemes r)
    (hrest : lexemes s = trail (row (lexemes t)) ++ (lexemes t).drop (row (lexemes t)).length)
    (hle : 2 ≤ (row (lexemes t)).countP (·.kind = .space)) (hs : Settles s) : Settles t := by
  have hsqueezed : squeezeUnits (lexemes t) = squeezeUnits (lexemes s) := by
    rw [hrest]
    rw [ht] at hle ⊢
    exact squeezeUnits_run hu hle
  constructor
  · rw [hsqueezed]
    exact hs.runFree
  · intro _
    rw [ht, leadsToSpace_space hu]

theorem stable_first (c : Char) (t : Text) : (Lexeme.first c t).Stable ∨ c :: t = ['\\'] ∨
    (∃ r, c :: t = '\\' :: '\r' :: r ∧ r.head? ≠ some '\n') ∨
      ∃ d r, c :: t = '\\' :: d :: r ∧ (d = 'x' ∨ d = 'u') ∧
        escapeBody (d :: r) = (.other, [d]) := by
  by_cases hc : c = '\\'
  · subst hc
    rcases escapeBody_cases t with h | rfl | ⟨r, rfl, hr⟩ | ⟨d, r, rfl, hd, hother⟩
    · exact .inl (stable_escape h)
    · exact .inr (.inl rfl)
    · exact .inr (.inr (.inl ⟨r, rfl, hr⟩))
    · exact .inr (.inr (.inr ⟨d, r, rfl, hd, hother⟩))
  · rw [Lexeme.first, if_neg hc]
    split
    · next hspace =>
      subst hspace
      exact .inl fun r ↦ lexemes_cons ' ' r
    · next hspace => exact .inl (stable_char ⟨hspace, hc⟩)

theorem stable_space (h : (Lexeme.first c t).kind = .space) : (Lexeme.first c t).Stable := by
  have hunits := lexemes_cons c t
  rcases stable_first c t with hs | he | ⟨r, he, hr⟩ | ⟨d, r, he, -, hother⟩
  · exact hs
  · cases he
    cases h
  · rw [he, lexemes_return hr] at hunits
    rw [← (List.cons.inj hunits).1] at h
    cases h
  · rw [he, lexemes_code hother] at hunits
    rw [← (List.cons.inj hunits).1] at h
    cases h

theorem settles_cons (h : DigitsFollow (lexemes (c :: t)))
    (ih : ∀ s : Text, s.length < (c :: t).length → lexemes s <:+ lexemes (c :: t) → Settles s) :
    Settles (c :: t) := by
  have hunits := lexemes_cons c t
  have hlt := Lexeme.length_drop_first_lt c t
  have hrest := ih _ hlt (by rw [hunits]; exact List.suffix_cons _ _)
  by_cases hk : (Lexeme.first c t).kind = .space
  · by_cases hle : 2 ≤ (row (lexemes (c :: t))).countP (·.kind = .space)
    · -- What trails the run is read on, so the rest is a suffix of the units, but not of the text.
      obtain ⟨-, hrun⟩ := Run.of_space hk 0 rfl
      refine settles_run hk hunits hrun hle (ih _ ?_ ?_)
      · exact Nat.lt_of_le_of_lt (Run.length_rest_extend _ _ _ (Nat.le_refl _)) hlt
      · rw [hrun]
        exact trail_append_drop_suffix _
    · exact settles_alone hk (stable_space hk) hunits (Nat.lt_of_not_le hle) hrest
  · rcases stable_first c t with hs | he | ⟨r, he, hr⟩ | ⟨d, r, he, hd, hother⟩
    · exact settles_unit hk hunits (hs _) hrest
    · cases he
      have hlone : lexemes ['\\'] = ⟨.other, ['\\']⟩ :: lexemes [] := lexemes_escape (e := []) rfl
      refine settles_unit (r := []) (u := ⟨.other, ['\\']⟩) (by decide) hlone ?_ settles_nil
      have hnil : squeezeUnits (lexemes []) = [] := by rw [lexemes, squeezeUnits]
      rw [hnil]
      exact hlone
    · have hreturn := lexemes_return hr
      rw [he] at ih ⊢
      refine settles_return hr (ih r (by simp) ?_)
      rw [hreturn]
      exact List.suffix_cons _ _
    · have hcode := lexemes_code hother
      rw [he] at h ih ⊢
      rw [hcode] at h
      obtain ⟨m, s, hm, hdigits⟩ := h.exists_codeDigits hd rfl
      rw [flatMap_text_lexemes] at hdigits
      subst hdigits
      refine settles_code hm (by simp [hother]) (ih _ (by simp) ?_)
      rw [hcode]
      exact List.suffix_cons _ _

theorem settles (t : Text) (h : DigitsFollow (lexemes t)) : Settles t := by
  induction hn : t.length using Nat.strongRecOn generalizing t with
  | _ n ih =>
    cases t with
    | nil => exact settles_nil
    | cons c t => exact settles_cons h fun s hs hsuffix ↦ ih _ (hn ▸ hs) s (h.of_suffix hsuffix) rfl

theorem RunFree.exists_between {passed between rest : List Lexeme} {v : Lexeme}
    (h : RunFree (passed ++ u :: (between ++ v :: rest))) (hu : u.kind = .space)
    (hv : v.kind = .space) : ∃ w ∈ between, w.kind ≠ .continuation := by
  by_contra hnone
  have hk : ∀ w ∈ between, w.kind = .continuation := fun w hw ↦
    Classical.byContradiction fun hne ↦ hnone ⟨w, hw, hne⟩
  have hapart := h.of_append.1 hu
  rw [leadsToSpace_append hk, leadsToSpace_space hv] at hapart
  cases hapart

/-- Read anew, squeezed text has between any two of its spaces a unit that is no continuation, and
to squeeze it once more changes nothing. -/
theorem squeeze_squeeze {raw : Text} (h : DigitsFollow (lexemes raw)) (o₁ o₂ : Nat) :
    (∀ passed u between v rest,
      lexemes (squeeze raw o₁).text = passed ++ u :: (between ++ v :: rest) →
      u.kind = .space → v.kind = .space → ∃ w ∈ between, w.kind ≠ .continuation) ∧
    (squeeze (squeeze raw o₁).text o₂).text = (squeeze raw o₁).text := by
  have htext : (squeeze raw o₁).text = squeezeUnits (lexemes raw) := text_squeezeFrom_none o₁ raw
  have hfree : RunFree (lexemes (squeeze raw o₁).text) := by
    rw [htext]
    exact (settles raw h).runFree
  constructor
  · intro passed u between v rest hunits hu hv
    rw [hunits] at hfree
    exact hfree.exists_between hu hv
  · have hagain : (squeeze (squeeze raw o₁).text o₂).text =
        squeezeUnits (lexemes (squeeze raw o₁).text) := text_squeezeFrom_none o₂ _
    rw [hagain, hfree.squeezeUnits_eq, flatMap_text_lexemes]

theorem squeeze_squeeze_joined :
    DigitsFollow (lexemes "\\\r  \n \\x41$  \x7b\\u\x7b041\x7d\\0  7".toList) ∧
      (squeeze (squeeze "\\\r  \n \\x41$  \x7b\\u\x7b041\x7d\\0  7".toList 3).text 5).text =
        (squeeze "\\\r  \n \\x41$  \x7b\\u\x7b041\x7d\\0  7".toList 3).text := by
  have hunits : lexemes "\\\r  \n \\x41$  \x7b\\u\x7b041\x7d\\0  7".toList =
      [⟨.continuation, ['\\', '\r']⟩, ⟨.space, [' ']⟩, ⟨.space, [' ']⟩, ⟨.other, ['\n']⟩,
        ⟨.space, [' ']⟩, ⟨.other, ['\\', 'x']⟩, ⟨.other, ['4']⟩, ⟨.other, ['1']⟩, ⟨.other, ['$']⟩,
        ⟨.space, [' ']⟩, ⟨.space, [' ']⟩, ⟨.other, ['\x7b']⟩, ⟨.other, ['\\', 'u']⟩,
        ⟨.other, ['\x7b']⟩, ⟨.other, ['0']⟩, ⟨.other, ['4']⟩, ⟨.other, ['1']⟩, ⟨.other, ['\x7d']⟩,
        ⟨.other, ['\\', '0']⟩, ⟨.space, [' ']⟩, ⟨.space, [' ']⟩, ⟨.other, ['7']⟩] := by cbv
  have hdigits : DigitsFollow (lexemes "\\\r  \n \\x41$  \x7b\\u\x7b041\x7d\\0  7".toList) := by
    rw [hunits]
    decide
  exact ⟨hdigits, (squeeze_squeeze hdigits 3 5).2⟩

/-- Digits that a run keeps apart come to name a space, and here a space follows. -/
example : (squeeze "\\x2  0 ".toList 0).text = "\\x20 ".toList ∧
    (squeeze "\\x20 ".toList 0).text = [] :=
  ⟨by cbv, by cbv⟩

end TemplateSqueeze.Template
