import TemplateSqueeze.Proofs.Template.Cooked

namespace TemplateSqueeze.Template

open Text Segment

variable {c : Char} {t r e : Text} {x v : List Nat} {offset : Nat} {u : Held}

def Paired (t : Text) : Prop := ∀ a r, t = a ++ '\r' :: r → r.head? = some '\n'

/-- A raw text that cooks to something, and in which every carriage return has its line feed. -/
structure IsSegmentText (t : Text) : Prop where
  cooks : (cook? t).isSome
  paired : Paired t

theorem Paired.append {a b : Text} (ha : Paired a) (hb : Paired b) : Paired (a ++ b) := by
  intro p r h
  rcases List.append_eq_append_iff.1 h with ⟨m, -, hm⟩ | ⟨m, rfl, hm⟩
  · exact hb m r hm
  · cases m with
    | nil => exact hb [] r hm.symm
    | cons c m =>
      obtain ⟨rfl, hr⟩ := List.cons.inj hm
      obtain ⟨m, rfl⟩ := List.head?_eq_some_iff.1 (ha p m rfl)
      rw [hr]
      rfl

theorem Paired.of_append {a b : Text} (h : Paired (a ++ b)) : Paired b := by
  rintro p r rfl
  exact h (a ++ p) r (by simp)

theorem paired_of_not_mem (h : '\r' ∉ t) : Paired t := by
  rintro a r rfl
  simp at h

theorem paired_pair : Paired ['\r', '\n'] := by
  intro a r h
  match a with
  | [] =>
    rw [← (List.cons.inj h).2]
    rfl
  | [_] => cases (List.cons.inj (List.cons.inj h).2).1
  | _ :: _ :: _ => simp at h

theorem cook?_of_element? (h : element? t = some (x, r)) : cook? t = (cook? r).map (x ++ ·) := by
  cases t with
  | nil => cases h
  | cons c t =>
    rw [cook?]
    split
    · next h' =>
      rw [h] at h'
      cases h'
      rfl
    · next h' =>
      rw [h] at h'
      cases h'

theorem exists_element? (h : cook? (c :: t) = some v) : ∃ x r v', element? (c :: t) = some (x, r) ∧
    cook? r = some v' ∧ v = x ++ v' := by
  rw [cook?] at h
  split at h
  · next x r hx =>
    obtain ⟨v', hv, rfl⟩ := Option.map_eq_some_iff.1 h
    exact ⟨x, r, v', hx, hv, rfl⟩
  · cases h

theorem withoutRuns_append (hx : 32 ∉ x) (v : List Nat) :
    withoutRuns (x ++ v) = x ++ withoutRuns v := by
  induction x with
  | nil => rfl
  | cons n x ih =>
    simp only [List.mem_cons, not_or] at hx
    rw [List.cons_append, withoutRuns, if_neg (fun h ↦ hx.1 h.1.symm), ih hx.2, List.cons_append]

theorem withoutRuns_replicate {k : Nat} (hk : 2 ≤ k) (hv : v.head? ≠ some 32) :
    withoutRuns (List.replicate k 32 ++ v) = withoutRuns v := by
  obtain ⟨k, rfl⟩ := Nat.exists_eq_add_of_le' hk
  have hdrop : (List.replicate (k + 1) 32 ++ v).dropWhile (· == 32) = v := by
    rw [List.dropWhile_append_of_pos (by simp)]
    cases v with
    | nil => rfl
    | cons n v =>
      rw [List.dropWhile_cons, if_neg]
      simpa using hv
  rw [List.replicate_succ, List.cons_append, withoutRuns,
    if_pos ⟨rfl, by simp [List.replicate_succ]⟩, hdrop]

theorem withoutRuns_cons (hv : v.head? ≠ some 32) :
    withoutRuns (32 :: v) = 32 :: withoutRuns v := by
  rw [withoutRuns, if_neg fun h ↦ hv h.2]

theorem text_squeezeFrom_nil (offset : Nat) : text (squeezeFrom none offset []) = [] := by
  rw [squeezeFrom]
  rfl

theorem squeezeFrom_cons (h : (Lexeme.first c t).kind ≠ .space) (offset : Nat) :
    squeezeFrom none offset (c :: t) =
      squeezeFrom (some ⟨(Lexeme.first c t).text, offset⟩) (offset + (Lexeme.first c t).text.size)
        ((c :: t).drop (Lexeme.first c t).text.length) := by
  rw [squeezeFrom]
  simp only [if_neg h]
  rfl

theorem head?_first (c : Char) (t : Text) : (Lexeme.first c t).text.head? = some c := by
  have h := congrArg List.head? (Lexeme.first_append c t)
  have hpos := Lexeme.length_first_pos c t
  rwa [List.head?_append_of_ne_nil _ (List.ne_nil_of_length_pos hpos)] at h

theorem head?_respelled (w : Text) (next : Option Char) :
    ((respelling? w next).getD w).head? = w.head? ∨
      ((respelling? w next).getD w).head? = some '\\' := by
  unfold respelling?
  split
  · exact .inr rfl
  · split
    · exact .inr rfl
    · exact .inl rfl
  · exact .inl rfl

theorem head?_squeezeFrom_held (hu : u.text.head? = some c) (offset : Nat) (t : Text) :
    (text (squeezeFrom (some u) offset t)).head? = some c ∨
      (text (squeezeFrom (some u) offset t)).head? = some '\\' := by
  have hne : u.text ≠ [] := by
    intro h
    rw [h] at hu
    cases hu
  cases t with
  | nil =>
    rw [squeezeFrom, text_write]
    exact .inl hu
  | cons d t =>
    rw [squeezeFrom]
    simp only
    split
    · split
      · rw [text_append, text_writeBefore]
        generalize (Run.extend _ _ _).rest.head? = next
        rw [List.head?_append]
        rcases head?_respelled u.text next with h | h
        · rw [h, hu]
          exact .inl rfl
        · rw [h]
          exact .inr rfl
      · rw [text_append, text_append, text_write, List.append_assoc,
          List.head?_append_of_ne_nil _ hne]
        exact .inl hu
    · rw [text_append, text_write, List.head?_append_of_ne_nil _ hne]
      exact .inl hu

theorem head?_squeezeFrom (h : ∀ c r, t = c :: r → (Lexeme.first c r).kind ≠ .space)
    (offset : Nat) :
    (text (squeezeFrom none offset t)).head? = t.head? ∨
      (text (squeezeFrom none offset t)).head? = some '\\' := by
  cases t with
  | nil => exact .inl (congrArg List.head? (text_squeezeFrom_nil offset))
  | cons c t =>
    rw [squeezeFrom_cons (h c t rfl)]
    exact head?_squeezeFrom_held (head?_first c t) _ _

theorem Run.kind_rest_extend {run : Run}
    (h : run.rest = t ∨ ∃ c r, run.rest = c :: r ∧ (Lexeme.first c r).kind = .continuation) :
    ∀ c r, (run.extend offset t).rest = c :: r → (Lexeme.first c r).kind ≠ .space := by
  fun_induction Run.extend run offset t with
  | case1 run offset =>
    rintro c r hr
    rcases h with h | ⟨c', r', h, hk⟩
    · rw [h] at hr
      cases hr
    · rw [h] at hr
      cases hr
      rw [hk]
      decide
  | case2 run offset c t l rest next hl ih => exact ih (.inl rfl)
  | case3 run offset c t l rest next hl ih =>
    refine ih (.inr ?_)
    rcases h with h | h
    · exact ⟨c, t, h, hl⟩
    · exact h
  | case4 run offset c t l hl =>
    rintro d r hr
    rcases h with h | ⟨c', r', h, hk⟩
    · rw [h] at hr
      cases hr
      rw [hl]
      decide
    · rw [h] at hr
      cases hr
      rw [hk]
      decide

theorem text_squeezeFrom_held (u : Held) (offset : Nat) (t : Text) : ∃ next : Option Char,
    ((text (squeezeFrom none offset t)).head? = next ∨
      (text (squeezeFrom none offset t)).head? = some '\\') ∧
    (text (squeezeFrom (some u) offset t) =
        (respelling? u.text next).getD u.text ++ text (squeezeFrom none offset t) ∨
      next = t.head? ∧
        text (squeezeFrom (some u) offset t) = u.text ++ text (squeezeFrom none offset t)) := by
  cases t with
  | nil =>
    refine ⟨none, .inl ?_, .inr ⟨rfl, ?_⟩⟩
    · exact congrArg List.head? (text_squeezeFrom_nil offset)
    · rw [text_squeezeFrom_nil, squeezeFrom, text_write]
      exact (List.append_nil _).symm
  | cons c t =>
    by_cases hk : (Lexeme.first c t).kind = .space
    · rw [squeezeFrom, squeezeFrom]
      simp only [if_pos hk]
      split
      · refine ⟨_, head?_squeezeFrom (Run.kind_rest_extend (.inl rfl)) _, .inl ?_⟩
        rw [text_append, text_writeBefore]
        rfl
      · have hne : (Lexeme.first c t).text ≠ [] :=
          List.ne_nil_of_length_pos (Lexeme.length_first_pos c t)
        refine ⟨some c, .inl ?_, .inr ⟨rfl, ?_⟩⟩
        · rw [text_append, text_append, text_copy, List.append_assoc]
          exact (List.head?_append_of_ne_nil _ hne).trans (head?_first c t)
        · rw [text_append, text_append, text_append, text_append, text_write, List.append_assoc,
            List.append_assoc]
          rfl
    · refine ⟨some c, head?_squeezeFrom (fun _ _ h ↦ by cases h; exact hk) _, .inr ⟨rfl, ?_⟩⟩
      rw [squeezeFrom_cons hk, squeezeFrom]
      simp only [if_neg hk]
      rw [text_append, text_write]

theorem text_squeezeFrom_held_eq (hu : ∀ next, respelling? u.text next = none) (offset : Nat)
    (t : Text) :
    text (squeezeFrom (some u) offset t) = u.text ++ text (squeezeFrom none offset t) := by
  obtain ⟨next, -, h | ⟨-, h⟩⟩ := text_squeezeFrom_held u offset t
  · rwa [hu next] at h
  · exact h

theorem eq_of_respelling? {w s : Text} {next : Option Char} (h : respelling? w next = some s) :
    w = ['$'] ∨ w = ['\\', '0'] := by
  obtain ⟨c, -, hc⟩ := respelling?_eq_some_iff.1 h
  cases hc with
  | dollar => exact .inl rfl
  | null => exact .inr rfl

def Copied (e : Text) : Prop := ∀ offset r, ∃ offset',
  text (squeezeFrom none offset (e ++ r)) = e ++ text (squeezeFrom none offset' r)

theorem Copied.append {e' : Text} (h : Copied e) (h' : Copied e') : Copied (e ++ e') := by
  intro offset r
  obtain ⟨o, ho⟩ := h offset (e' ++ r)
  obtain ⟨o', ho'⟩ := h' o r
  exact ⟨o', by rw [List.append_assoc, ho, ho', List.append_assoc]⟩

theorem copied_cons (w : Text) {m : Text} (hm : Copied m) (hw : w ≠ ['$'] ∧ w ≠ ['\\', '0'])
    (hc : ∀ r, c :: (t ++ r) = w ++ (m ++ r) ∧ (Lexeme.first c (t ++ r)).kind ≠ .space ∧
      (Lexeme.first c (t ++ r)).text = w) : Copied (c :: t) := by
  intro offset r
  obtain ⟨he, hk, ht⟩ := hc r
  obtain ⟨o, ho⟩ := hm (offset + w.size) r
  have hu : ∀ next, respelling? w next = none := by
    intro next
    by_contra hn
    obtain ⟨s, hs⟩ := Option.ne_none_iff_exists'.1 hn
    exact (eq_of_respelling? hs).elim hw.1 hw.2
  have he' : c :: t = w ++ m := by simpa using (hc []).1
  refine ⟨o, ?_⟩
  rw [List.cons_append, squeezeFrom_cons hk, ht, he, List.drop_left,
    text_squeezeFrom_held_eq (u := ⟨w, offset⟩) hu, ho, he', List.append_assoc]

theorem copied_nil : Copied [] := fun offset _ ↦ ⟨offset, rfl⟩

theorem copied_singleton (h : c ≠ ' ' ∧ c ≠ '\\' ∧ c ≠ '$') : Copied [c] := by
  have hfirst : ∀ r, Lexeme.first c r = ⟨.other, [c]⟩ := by
    intro r
    rw [Lexeme.first, if_neg h.1, if_neg h.2.1]
  refine copied_cons [c] copied_nil ⟨by simp [h.2.2], by simp⟩ fun r ↦ ⟨rfl, ?_, ?_⟩
  · rw [hfirst]
    exact nofun
  · rw [hfirst]

theorem copied_of_all {m : Text} (h : ∀ c ∈ m, c ≠ ' ' ∧ c ≠ '\\' ∧ c ≠ '$') : Copied m := by
  induction m with
  | nil => exact copied_nil
  | cons c m ih =>
    rw [List.forall_mem_cons] at h
    exact (copied_singleton h.1).append (ih h.2)

theorem copied_escape {d : Char} {m : Text} (hm : Copied m) (hd : d ≠ '0')
    (h : ∀ r, (escapeBody (d :: (m ++ r))).1 ≠ .space ∧ (escapeBody (d :: (m ++ r))).2 = [d]) :
    Copied ('\\' :: d :: m) := by
  refine copied_cons ['\\', d] hm ⟨by simp, by simpa using hd⟩ fun r ↦ ⟨rfl, ?_⟩
  have hfirst : Lexeme.first '\\' (d :: (m ++ r)) = ⟨(escapeBody (d :: (m ++ r))).1,
      '\\' :: (escapeBody (d :: (m ++ r))).2⟩ := rfl
  rw [List.cons_append, hfirst]
  exact ⟨(h r).1, congrArg ('\\' :: ·) (h r).2⟩

/-- An element that reads and stays as it is, whatever follows. -/
structure Verbatim (e : Text) (x : List Nat) : Prop where
  reads : ∀ r, element? (e ++ r) = some (x, r)
  copied : Copied e
  paired : Paired e

/-- The elements that are no spaces. But for four of them, they do not depend on what follows. -/
inductive Element (r : Text) : Text → List Nat → Prop
  | dollar : r.head? ≠ some '\x7b' → Element r ['$'] [36]
  | null : r.head?.any Char.isDigit = false → Element r ['\\', '0'] [0]
  | loneReturn : r.head? ≠ some '\n' → Element r ['\r'] [10]
  | continuedReturn : r.head? ≠ some '\n' → Element r ['\\', '\r'] []
  | verbatim {e : Text} {x : List Nat} : Verbatim e x → Element r e x

theorem escapeBody_single {d : Char} {w : Text} (hb : bracedSpace? (d :: w) = none)
    (hspace : d ≠ ' ')
    (hx : d = 'x' → ∀ tail, w ≠ '2' :: '0' :: tail)
    (hu : d = 'u' → ∀ tail, w ≠ '0' :: '0' :: '2' :: '0' :: tail)
    (hr : d = '\r' → ∀ tail, w ≠ '\n' :: tail) :
    escapeBody (d :: w) = (if isLineTerminator d then .continuation else .other, [d]) := by
  generalize he : escapeBody (d :: w) = b
  unfold escapeBody at he
  split at he
  · next body _ h =>
    rw [hb] at h
    cases h
  · next t _ h =>
    exact absurd (List.cons.inj h).1 hspace
  · next t _ h =>
    exact absurd (List.cons.inj h).2 (hx (List.cons.inj h).1 t)
  · next t _ h =>
    exact absurd (List.cons.inj h).2 (hu (List.cons.inj h).1 t)
  · next t _ h =>
    exact absurd (List.cons.inj h).2 (hr (List.cons.inj h).1 t)
  · next c t _ _ _ _ _ h =>
    rw [← he, (List.cons.inj h).1]
  · next h => cases h

theorem escapeBody_of_ne {d : Char} {w : Text} (hb : bracedSpace? (d :: w) = none)
    (hspace : d ≠ ' ')
    (hx : d = 'x' → ∀ tail, w ≠ '2' :: '0' :: tail)
    (hu : d = 'u' → ∀ tail, w ≠ '0' :: '0' :: '2' :: '0' :: tail)
    (hr : d = '\r' → ∀ tail, w ≠ '\n' :: tail) :
    (escapeBody (d :: w)).1 ≠ .space ∧ (escapeBody (d :: w)).2 = [d] := by
  rw [escapeBody_single hb hspace hx hu hr]
  refine ⟨?_, rfl⟩
  simp only
  split <;> exact nofun

theorem bracedSpace?_eq_none_of_ne {w : Text} (h : w.take 2 ≠ ['u', '\x7b']) :
    bracedSpace? w = none := by
  refine Option.eq_none_iff_forall_ne_some.2 fun body hb ↦ h ?_
  obtain ⟨ds, r, rfl, rfl, -⟩ := bracedSpace?_eq_some hb
  rfl

theorem hexDigit_ne {d : Char} (h : isHexDigit c) (hd : isHexDigit d = false) : c ≠ d := by
  rintro rfl
  rw [hd] at h
  cases h

theorem copied_digits {ds : Text} (h : ds.all isHexDigit) : Copied ds :=
  copied_of_all fun c hc ↦ by
    have hc := List.all_eq_true.1 h c hc
    exact ⟨hexDigit_ne hc (by decide), hexDigit_ne hc (by decide), hexDigit_ne hc (by decide)⟩

theorem not_mem_digits {ds : Text} {d : Char} (h : ds.all isHexDigit) (hd : isHexDigit d = false) :
    d ∉ ds :=
  fun hm ↦ hexDigit_ne (List.all_eq_true.1 h d hm) hd rfl

theorem head?_digits {ds : Text} (hall : ds.all isHexDigit) (hne : ds ≠ []) (r : Text) :
    (ds ++ r).head? ≠ some '\x7b' := by
  obtain ⟨c, ds, rfl⟩ := List.exists_cons_of_ne_nil hne
  rw [List.cons_append, List.head?_cons, ne_eq, Option.some.injEq]
  exact hexDigit_ne (List.all_eq_true.1 hall c List.mem_cons_self) (by decide)

theorem escapeBody_digits {d : Char} {ds : Text} (hall : ds.all isHexDigit) (hx : hexNumber ds ≠ 32)
    (hd : d = 'x' ∧ ds.length = 2 ∨ d = 'u' ∧ ds.length = 4) (r : Text) :
    escapeBody (d :: (ds ++ r)) = (.other, [d]) := by
  have hspace : ¬ namesSpace ds := fun h ↦ hx ((namesSpace_iff hall).1 h)
  have hne : ds ≠ [] := by
    rintro rfl
    simp at hd
  have hl : isLineTerminator d = false := by
    rcases hd with ⟨rfl, -⟩ | ⟨rfl, -⟩ <;> rfl
  rw [escapeBody_single (bracedSpace?_eq_none_of_ne ?_) (by rintro rfl; simp at hd) ?_ ?_
    (by rintro rfl; simp at hd), hl]
  · rfl
  · intro h
    cases hw : ds ++ r with
    | nil => simp [hw] at h
    | cons c w =>
      rw [hw] at h
      have hc : c = '\x7b' := (List.cons.inj (List.cons.inj h).2).1
      exact head?_digits hall hne r (by rw [hw, List.head?_cons, hc])
  · rintro rfl tail h
    have hlen : ds.length = ['2', '0'].length := (hd.resolve_right (by simp)).2
    have happend : ds ++ r = ['2', '0'] ++ tail := h
    rw [(List.append_inj happend hlen).1] at hspace
    exact hspace (by decide)
  · rintro rfl tail h
    have hlen : ds.length = ['0', '0', '2', '0'].length := (hd.resolve_left (by simp)).2
    have happend : ds ++ r = ['0', '0', '2', '0'] ++ tail := h
    rw [(List.append_inj happend hlen).1] at hspace
    exact hspace (by decide)

theorem verbatim_fixed {d : Char} {ds : Text} (hall : ds.all isHexDigit) (hx : hexNumber ds ≠ 32)
    (hd : d = 'x' ∧ ds.length = 2 ∨ d = 'u' ∧ ds.length = 4) :
    Verbatim ('\\' :: d :: ds) [hexNumber ds] where
  reads r := by
    have hf : ∀ count, ds.length = count →
        fixedEscape? count (ds ++ r) = some ([hexNumber ds], r) :=
      fun count hc ↦ fixedEscape?_eq_some.2 ⟨ds, rfl, hc, hall, rfl⟩
    rcases hd with ⟨rfl, hlen⟩ | ⟨rfl, hlen⟩
    · exact hf 2 hlen
    · have he : element? ('\\' :: 'u' :: ds ++ r) = if (ds ++ r).head? = some '\x7b' then
          bracedEscape? (ds ++ r).tail else fixedEscape? 4 (ds ++ r) := rfl
      have hne : ds ≠ [] := List.ne_nil_of_length_pos (by omega)
      rw [he, if_neg (head?_digits hall hne r), hf 4 hlen]
  copied := copied_escape (copied_digits hall) (by rintro rfl; simp at hd)
    fun r ↦ by rw [escapeBody_digits hall hx hd]; exact ⟨nofun, rfl⟩
  paired := by
    refine paired_of_not_mem ?_
    simp only [List.mem_cons, not_or]
    refine ⟨by decide, ?_, not_mem_digits hall (by decide)⟩
    rintro rfl
    simp at hd

theorem verbatim_braced {ds : Text} (hall : ds.all isHexDigit) (hne : ds ≠ [])
    (hle : hexNumber ds ≤ 0x10FFFF) (hx : hexNumber ds ≠ 32) :
    Verbatim ('\\' :: 'u' :: '\x7b' :: (ds ++ ['\x7d'])) (utf16 (hexNumber ds)) := by
  have hbrace : Copied ('\x7b' :: (ds ++ ['\x7d'])) :=
    (copied_singleton (c := '\x7b') (by decide)).append
      ((copied_digits hall).append (copied_singleton (by decide)))
  constructor
  · intro r
    have he : element? ('\\' :: 'u' :: '\x7b' :: (ds ++ ['\x7d']) ++ r) =
        bracedEscape? (ds ++ ['\x7d'] ++ r) := rfl
    rw [he]
    exact bracedEscape?_eq_some.2 ⟨ds, by simp, hall, hne, hle, rfl⟩
  · refine copied_escape hbrace (by decide) fun r ↦ ?_
    refine escapeBody_of_ne ?_ (by decide) nofun (fun _ tail h ↦ nomatch (List.cons.inj h).1) nofun
    rw [List.cons_append, List.append_assoc, List.singleton_append, bracedSpace?_digits hall,
      if_neg fun h ↦ hx ((namesSpace_iff hall).1 h)]
  · refine paired_of_not_mem ?_
    have := not_mem_digits (d := '\r') hall (by decide)
    simp [this]

theorem verbatim_single {d : Char} {x : List Nat} (hread : ∀ r, escape? (d :: r) = some (x, r))
    (hd : d ≠ 'u' ∧ d ≠ 'x' ∧ d ≠ '0' ∧ d ≠ ' ' ∧ d ≠ '\r') : Verbatim ['\\', d] x where
  reads := hread
  copied := by
    obtain ⟨hu, hx, hzero, hspace, hr⟩ := hd
    refine copied_escape copied_nil hzero fun r ↦ ?_
    exact escapeBody_of_ne (bracedSpace?_eq_none_of_ne (by simp [hu])) hspace
      (fun h ↦ absurd h hx) (fun h ↦ absurd h hu) fun h ↦ absurd h hr
  paired := paired_of_not_mem (by simp [hd.2.2.2.2.symm])

theorem verbatim_escaped {d : Char} (hu : d ≠ 'u') (hx : d ≠ 'x') (hdigit : d.isDigit = false)
    (hl : isLineTerminator d = false) (hspace : d ≠ ' ') :
    Verbatim ['\\', d] (utf16 (escapedChar d).toNat) := by
  have hr : d ≠ '\r' := by
    rintro rfl
    cases hl
  have hzero : d ≠ '0' := by
    rintro rfl
    cases hdigit
  refine verbatim_single (fun r ↦ ?_) ⟨hu, hx, hzero, hspace, hr⟩
  rw [escape?, if_neg hu, if_neg hx, if_neg hzero, if_neg (by simp [hdigit]), if_neg (by simp [hl])]

theorem verbatim_continuation {d : Char} (hl : isLineTerminator d) (hr : d ≠ '\r') :
    Verbatim ['\\', d] [] := by
  have hcases : d = '\n' ∨ d = '\u2028' ∨ d = '\u2029' := by
    simpa [isLineTerminator, hr, or_assoc] using hl
  have hne : d ≠ 'u' ∧ d ≠ 'x' ∧ d ≠ '0' ∧ d ≠ ' ' ∧ d.isDigit = false := by
    rcases hcases with rfl | rfl | rfl <;> decide
  obtain ⟨hu, hx, hzero, hspace, hdigit⟩ := hne
  refine verbatim_single (fun r ↦ ?_) ⟨hu, hx, hzero, hspace, hr⟩
  rw [escape?, if_neg hu, if_neg hx, if_neg hzero, if_neg (by simp [hdigit]), if_pos hl,
    if_neg fun h ↦ hr h.1]

theorem verbatim_continuedPair : Verbatim ['\\', '\r', '\n'] [] where
  reads _ := rfl
  copied := by
    have hfirst : ∀ r, Lexeme.first '\\' ('\r' :: '\n' :: r) =
        ⟨.continuation, ['\\', '\r', '\n']⟩ := fun _ ↦ rfl
    refine copied_cons ['\\', '\r', '\n'] copied_nil (by decide) fun r ↦ ⟨rfl, ?_⟩
    rw [List.cons_append, List.cons_append, hfirst]
    exact ⟨nofun, rfl⟩
  paired := (paired_of_not_mem (t := ['\\']) (by decide)).append paired_pair

theorem verbatim_pair : Verbatim ['\r', '\n'] [10] where
  reads _ := rfl
  copied := copied_of_all (by simp)
  paired := paired_pair

theorem verbatim_char (h : c ≠ '\\' ∧ c ≠ mark ∧ c ≠ '$' ∧ c ≠ '\r' ∧ c ≠ ' ') :
    Verbatim [c] (utf16 c.toNat) where
  reads r := by
    have he : element? ([c] ++ r) = element? (c :: r) := rfl
    rw [he, element?, if_neg h.1, if_neg h.2.1, if_neg fun h' ↦ h.2.2.1 h'.1, if_neg h.2.2.2.1]
  copied := copied_singleton ⟨h.2.2.2.2, h.1, h.2.2.1⟩
  paired := paired_of_not_mem (by simp [h.2.2.2.1.symm])

theorem exists_escape (h : escape? t = some (x, r)) (hx : 32 ∉ x) :
    ∃ e, '\\' :: t = e ++ r ∧ Element r e x := by
  cases escape_of_escape? h with
  | braced hall hne hle =>
    refine ⟨_, ?_, .verbatim (verbatim_braced hall hne hle fun hn ↦ hx (mem_utf16.2 hn))⟩
    simp
  | unicode hall hlen =>
    exact ⟨_, rfl, .verbatim (verbatim_fixed hall (fun hn ↦ hx (by simp [hn])) (.inr ⟨rfl, hlen⟩))⟩
  | hex hall hlen =>
    exact ⟨_, rfl, .verbatim (verbatim_fixed hall (fun hn ↦ hx (by simp [hn])) (.inl ⟨rfl, hlen⟩))⟩
  | null hdigit => exact ⟨['\\', '0'], rfl, .null hdigit⟩
  | continuedPair => exact ⟨_, rfl, .verbatim verbatim_continuedPair⟩
  | @continuation d hl hpair =>
    by_cases hr : d = '\r'
    · subst hr
      exact ⟨['\\', '\r'], rfl, .continuedReturn fun hfeed ↦ hpair ⟨rfl, hfeed⟩⟩
    · exact ⟨['\\', d], rfl, .verbatim (verbatim_continuation hl hr)⟩
  | @char d hu hxd hdigit hl =>
    refine ⟨['\\', d], rfl, .verbatim (verbatim_escaped hu hxd hdigit hl ?_)⟩
    rintro rfl
    exact hx (by decide)

theorem exists_element (h : element? t = some (x, r)) (hx : 32 ∉ x) :
    ∃ e, t = e ++ r ∧ Element r e x := by
  cases t with
  | nil => cases h
  | cons c t =>
    rw [element?] at h
    split at h
    · next hc =>
      subst hc
      exact exists_escape h hx
    · next hc =>
      obtain ⟨hmark, h⟩ := Option.ite_none_left_eq_some.1 h
      obtain ⟨hdollar, h⟩ := Option.ite_none_left_eq_some.1 h
      split at h
      · next hr =>
        subst hr
        cases h
        by_cases hh : t.head? = some '\n'
        · obtain ⟨t, rfl⟩ := List.head?_eq_some_iff.1 hh
          exact ⟨_, rfl, .verbatim verbatim_pair⟩
        · rw [if_neg hh]
          exact ⟨['\r'], rfl, .loneReturn hh⟩
      · next hr =>
        cases h
        by_cases hd : c = '$'
        · subst hd
          exact ⟨['$'], rfl, .dollar fun hh ↦ hdollar ⟨rfl, hh⟩⟩
        · refine ⟨[c], rfl, .verbatim (verbatim_char ⟨hc, hmark, hd, hr, ?_⟩)⟩
          rintro rfl
          exact hx (by decide)

theorem reads_escapeBody (h : (escapeBody t).1 = .space) :
    (∀ r, escape? ((escapeBody t).2 ++ r) = some ([32], r)) ∧ '\r' ∉ (escapeBody t).2 := by
  generalize he : escapeBody t = b at h ⊢
  unfold escapeBody at he
  split at he
  · next body _ hb =>
    subst he
    obtain ⟨ds, r', rfl, -, hs, -⟩ := bracedSpace?_eq_some hb
    refine ⟨escape?_bracedSpace hs, ?_⟩
    have := not_mem_digits (d := '\r') (all_of_namesSpace hs) (by decide)
    simp [this]
  · subst he
    exact ⟨fun _ ↦ rfl, by decide⟩
  · subst he
    exact ⟨fun _ ↦ rfl, by decide⟩
  · subst he
    exact ⟨fun _ ↦ rfl, by decide⟩
  · subst he
    cases h
  · subst he
    simp only at h
    split at h <;> cases h
  · subst he
    cases h

theorem reads_space (h : (Lexeme.first c t).kind = .space) :
    (∀ r, element? ((Lexeme.first c t).text ++ r) = some ([32], r)) ∧
      Paired (Lexeme.first c t).text := by
  unfold Lexeme.first at h ⊢
  split
  · next hc =>
    subst hc
    exact ⟨fun _ ↦ rfl, paired_of_not_mem (by decide)⟩
  · next hc =>
    rw [if_neg hc] at h
    split at h
    · next hb =>
      subst hb
      rw [if_pos rfl]
      obtain ⟨hreads, hr⟩ := reads_escapeBody h
      exact ⟨hreads, paired_of_not_mem (by simpa using hr)⟩
    · cases h

theorem drop_first (h : c :: t = (Lexeme.first c t).text ++ r) :
    (c :: t).drop (Lexeme.first c t).text.length = r := by
  generalize (Lexeme.first c t).text = w at *
  rw [h, List.drop_left]

theorem text_squeezeFrom_space (h : (Lexeme.first c t).kind = .space)
    (hr : c :: t = (Lexeme.first c t).text ++ r) (offset : Nat) {run : Run}
    (hrun : Run.extend ⟨1, r, offset + (Lexeme.first c t).text.size⟩
      (offset + (Lexeme.first c t).text.size) r = run) :
    (2 ≤ run.spaces → text (squeezeFrom none offset (c :: t)) =
      text (squeezeFrom none run.offset run.rest)) ∧
    (run.spaces < 2 → text (squeezeFrom none offset (c :: t)) =
      (Lexeme.first c t).text ++
        text (squeezeFrom none (offset + (Lexeme.first c t).text.size) r)) := by
  rw [squeezeFrom]
  simp only [if_pos h, drop_first hr, hrun]
  constructor
  · intro hspaces
    rw [if_pos hspaces, text_append]
    rfl
  · intro hspaces
    rw [if_neg (Nat.not_le.2 hspaces), text_append, text_append, text_copy]
    rfl

theorem Run.cook?_extend (run : Run) (offset : Nat) (t : Text) :
    ∀ v, cook? run.rest = some v → cook? t = some v → ∃ k v', v = List.replicate k 32 ++ v' ∧
      (run.extend offset t).spaces = run.spaces + k ∧
      cook? (run.extend offset t).rest = some v' ∧ v'.head? ≠ some 32 := by
  fun_induction Run.extend run offset t with
  | case1 run offset =>
    intro v hrun ht
    rw [cook?, Option.some.injEq] at ht
    exact ⟨0, v, rfl, rfl, hrun, by simp [← ht]⟩
  | case2 run offset c t l rest next hl ih =>
    intro v hrun ht
    obtain ⟨x, r, v', hx, hr, rfl⟩ := exists_element? ht
    obtain ⟨rfl, he⟩ := (element?_first hx).1 hl
    rw [← drop_first he] at hr
    obtain ⟨k, v'', rfl, hk, hv'⟩ := ih v' hr hr
    refine ⟨k + 1, v'', rfl, ?_, hv'⟩
    rw [hk, Nat.add_assoc, Nat.add_comm 1 k]
  | case3 run offset c t l rest next hl ih =>
    intro v hrun ht
    obtain ⟨x, r, v', hx, hr, rfl⟩ := exists_element? ht
    obtain ⟨rfl, he⟩ := (element?_first hx).2.1 hl
    rw [← drop_first he] at hr
    exact ih v' hrun hr
  | case4 run offset c t l hl =>
    intro v hrun ht
    obtain ⟨x, r, v', hx, hr, rfl⟩ := exists_element? ht
    obtain ⟨hne, hspace⟩ := (element?_first hx).2.2 hl
    refine ⟨0, x ++ v', rfl, rfl, hrun, ?_⟩
    obtain ⟨n, x, rfl⟩ := List.exists_cons_of_ne_nil hne
    intro h
    cases h
    exact hspace List.mem_cons_self

theorem Run.suffix_extend {run : Run} {w : Text} (hrun : run.rest <:+ w) (ht : t <:+ w) :
    (run.extend offset t).rest <:+ w := by
  fun_induction Run.extend run offset t with
  | case1 => exact hrun
  | case2 run offset c t l rest next hl ih =>
    have hrest : rest <:+ w := (List.drop_suffix _ _).trans ht
    exact ih hrest hrest
  | case3 run offset c t l rest next hl ih => exact ih hrun ((List.drop_suffix _ _).trans ht)
  | case4 => exact hrun

theorem cook?_append {w out : Text} (h : element? (w ++ out) = some (x, out))
    (hout : cook? out = some v) : cook? (w ++ out) = some (x ++ v) := by
  rw [cook?_of_element? h, hout]
  rfl

/-- An element that is spelled another way where what follows it would go with it. -/
structure Respelled (e e' : Text) (x : List Nat) (clashes : Option Char → Bool) : Prop where
  held : ∀ offset r, squeezeFrom none offset (e ++ r) =
    squeezeFrom (some ⟨e, offset⟩) (offset + e.size) r
  spelling : ∀ next, (respelling? e next).getD e = if clashes next then e' else e
  backslash : clashes (some '\\') = false
  reads : ∀ r, clashes r.head? = false → element? (e ++ r) = some (x, r)
  respelledReads : ∀ r, element? (e' ++ r) = some (x, r)
  paired : Paired e ∧ Paired e'

theorem respelled_dollar : Respelled ['$'] ['\\', '$'] [36] (· == some '\x7b') where
  held offset r := by
    have hk : (Lexeme.first '$' r).kind ≠ .space := (by decide : LexemeKind.other ≠ .space)
    exact squeezeFrom_cons hk offset
  spelling next := by
    cases next with
    | none => rfl
    | some d => by_cases hd : d = '\x7b' <;> simp [respelling?, hd]
  backslash := rfl
  reads r hr := by
    have he : element? (['$'] ++ r) = if '$' = '$' ∧ r.head? = some '\x7b' then none else
        some ([36], r) := rfl
    rw [he, if_neg fun h ↦ Bool.eq_false_iff.1 hr (beq_iff_eq.2 h.2)]
  respelledReads _ := rfl
  paired := ⟨paired_of_not_mem (by decide), paired_of_not_mem (by decide)⟩

theorem respelled_null :
    Respelled ['\\', '0'] ['\\', 'x', '0', '0'] [0] (·.any Char.isDigit) where
  held offset r := by
    have hk : (Lexeme.first '\\' ('0' :: r)).kind ≠ .space :=
      (by decide : LexemeKind.other ≠ .space)
    exact squeezeFrom_cons hk offset
  spelling next := by
    cases next with
    | none => rfl
    | some d => by_cases hd : d.isDigit <;> simp [respelling?, hd]
  backslash := rfl
  reads r hr := by
    have he : element? (['\\', '0'] ++ r) = if r.head?.any Char.isDigit then none else
        some ([0], r) := rfl
    rw [he, if_neg (Bool.eq_false_iff.1 hr)]
  respelledReads _ := rfl
  paired := ⟨paired_of_not_mem (by decide), paired_of_not_mem (by decide)⟩

theorem Respelled.exists_write {e' : Text} {clashes : Option Char → Bool}
    (h : Respelled e e' x clashes) (hr : clashes r.head? = false) (offset : Nat) :
    ∃ w offset', text (squeezeFrom none offset (e ++ r)) =
        w ++ text (squeezeFrom none offset' r) ∧ Paired w ∧
      element? (w ++ text (squeezeFrom none offset' r)) =
        some (x, text (squeezeFrom none offset' r)) := by
  obtain ⟨next, hhead, hw⟩ := text_squeezeFrom_held ⟨e, offset⟩ (offset + e.size) r
  rw [h.held]
  by_cases hn : clashes next
  · refine ⟨e', offset + e.size, ?_, h.paired.2, h.respelledReads _⟩
    rcases hw with hw | ⟨rfl, -⟩
    · rwa [h.spelling, if_pos hn] at hw
    · exact absurd hn (Bool.eq_false_iff.1 hr)
  · refine ⟨e, offset + e.size, ?_, h.paired.1, h.reads _ ?_⟩
    · rcases hw with hw | ⟨-, hw⟩
      · rwa [h.spelling, if_neg hn] at hw
      · exact hw
    · rcases hhead with hhead | hhead
      · rw [hhead]
        exact Bool.eq_false_iff.2 hn
      · rw [hhead]
        exact h.backslash

theorem Element.exists_write (h : Element r e x)
    (hr : e = ['\r'] ∨ e = ['\\', '\r'] → r.head? = some '\n') (offset : Nat) :
    ∃ w offset', text (squeezeFrom none offset (e ++ r)) =
        w ++ text (squeezeFrom none offset' r) ∧ Paired w ∧
      element? (w ++ text (squeezeFrom none offset' r)) =
        some (x, text (squeezeFrom none offset' r)) := by
  cases h with
  | dollar hbrace => exact respelled_dollar.exists_write (by simpa using hbrace) offset
  | null hdigit => exact respelled_null.exists_write hdigit offset
  | loneReturn hfeed => exact absurd (hr (.inl rfl)) hfeed
  | continuedReturn hfeed => exact absurd (hr (.inr rfl)) hfeed
  | verbatim hv =>
    obtain ⟨offset', ho⟩ := hv.copied offset r
    exact ⟨e, offset', ho, hv.paired, hv.reads _⟩

/-- Squeezing takes the runs out of what the text cooks to, and leaves its line ends in pairs. -/
def Keeps (t : Text) : Prop := ∀ v offset, cook? t = some v →
  cook? (text (squeezeFrom none offset t)) = some (withoutRuns v) ∧
    Paired (text (squeezeFrom none offset t))

theorem keeps_space (h : (Lexeme.first c t).kind = .space)
    (ih : ∀ s, s <:+ (c :: t).drop (Lexeme.first c t).text.length → Keeps s) : Keeps (c :: t) := by
  intro v offset hv
  obtain ⟨x, r, v', hx, hr, rfl⟩ := exists_element? hv
  obtain ⟨rfl, he⟩ := (element?_first hx).1 h
  obtain ⟨hreads, hpaired⟩ := reads_space h
  obtain ⟨hgone, halone⟩ := text_squeezeFrom_space h he offset rfl
  rw [drop_first he] at ih
  obtain ⟨k, v'', rfl, hk, hrest, hhead⟩ :=
    Run.cook?_extend ⟨1, r, offset + (Lexeme.first c t).text.size⟩
      (offset + (Lexeme.first c t).text.size) r v' hr hr
  simp only at hk
  rw [hk] at hgone halone
  cases k with
  | zero =>
    obtain ⟨hcook, hpairs⟩ := ih r (List.suffix_refl r) _ (offset + (Lexeme.first c t).text.size) hr
    rw [halone (by decide)]
    refine ⟨?_, hpaired.append hpairs⟩
    exact (cook?_append (hreads _) hcook).trans (congrArg some (withoutRuns_cons hhead).symm)
  | succ k =>
    obtain ⟨hcook, hpairs⟩ :=
      ih _ (Run.suffix_extend (List.suffix_refl r) (List.suffix_refl r)) v'' _ hrest
    rw [hgone (by omega), ← List.append_assoc, List.singleton_append, ← List.replicate_succ,
      withoutRuns_replicate (by omega) hhead]
    exact ⟨hcook, hpairs⟩

theorem keeps_element (hp : Paired (e ++ r)) (hx : 32 ∉ x) (he : element? (e ++ r) = some (x, r))
    (h : Element r e x) (ih : Keeps r) : Keeps (e ++ r) := by
  intro v offset hv
  obtain ⟨v', hr, rfl⟩ : ∃ v', cook? r = some v' ∧ x ++ v' = v := by
    rw [cook?_of_element? he] at hv
    exact Option.map_eq_some_iff.1 hv
  have hfeed : e = ['\r'] ∨ e = ['\\', '\r'] → r.head? = some '\n' := by
    rintro (rfl | rfl)
    · exact hp [] r rfl
    · exact hp ['\\'] r rfl
  obtain ⟨w, offset', hw, hwp, hread⟩ := h.exists_write hfeed offset
  obtain ⟨hcook, hpairs⟩ := ih v' offset' hr
  rw [withoutRuns_append hx, hw]
  exact ⟨cook?_append hread hcook, hwp.append hpairs⟩

theorem keeps_of_paired (hp : Paired t) : Keeps t := by
  -- By the length, as a run takes many elements at once.
  induction hn : t.length using Nat.strongRecOn generalizing t with
  | _ n ih =>
    cases t with
    | nil =>
      intro v offset hv
      rw [cook?, Option.some.injEq] at hv
      rw [← hv, text_squeezeFrom_nil, cook?, withoutRuns]
      exact ⟨rfl, hp⟩
    | cons c t =>
      have ih' : ∀ s, s <:+ c :: t → s.length < (c :: t).length → Keeps s := by
        rintro s ⟨p, hps⟩ hlt
        rw [← hps] at hp
        exact ih s.length (hn ▸ hlt) hp.of_append rfl
      by_cases hk : (Lexeme.first c t).kind = .space
      · refine keeps_space hk fun s hs ↦ ih' s (hs.trans (List.drop_suffix _ _)) ?_
        exact Nat.lt_of_le_of_lt hs.length_le (Lexeme.length_drop_first_lt c t)
      · intro v offset hv
        obtain ⟨x, r, v', hx, -, -⟩ := exists_element? hv
        have hspace := not_mem_of_element? hx hk
        obtain ⟨e, he, hel⟩ := exists_element hx hspace
        rw [he] at hp hx hv ⊢
        have hlt := length_of_element? (c := c) (t := t) (by rw [he]; exact hx)
        exact keeps_element hp hspace hx hel (ih' r ⟨e, he.symm⟩ hlt) v offset hv

/-- Squeezing a segment text gives a segment text, whose cooked value is that of the raw one without
its runs of two or more spaces. -/
theorem isSegmentText_squeeze {raw : Text} (h : IsSegmentText raw) (origin : Nat) :
    IsSegmentText (squeeze raw origin).text ∧
      cook? (squeeze raw origin).text = (cook? raw).map withoutRuns := by
  obtain ⟨v, hv⟩ := Option.isSome_iff_exists.1 h.cooks
  obtain ⟨hcook, hpaired⟩ := keeps_of_paired h.paired v origin hv
  rw [hv]
  exact ⟨⟨by rw [squeeze, hcook]; rfl, hpaired⟩, hcook⟩

theorem isSegmentText_squeeze_respelled :
    IsSegmentText "$  \x7b\\0 \\x201".toList ∧
      IsSegmentText (squeeze "$  \x7b\\0 \\x201".toList 0).text ∧
      cook? (squeeze "$  \x7b\\0 \\x201".toList 0).text = some [36, 123, 0, 49] := by
  have hcook : cook? "$  \x7b\\0 \\x201".toList = some [36, 32, 32, 123, 0, 32, 32, 49] := by cbv
  have h : IsSegmentText "$  \x7b\\0 \\x201".toList :=
    ⟨by rw [hcook]; rfl, paired_of_not_mem (by decide)⟩
  obtain ⟨hs, hsqueeze⟩ := isSegmentText_squeeze h 0
  refine ⟨h, hs, hsqueeze.trans ?_⟩
  rw [hcook]
  simp [withoutRuns]

end TemplateSqueeze.Template
