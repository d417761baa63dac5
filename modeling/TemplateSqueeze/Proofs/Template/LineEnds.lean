import TemplateSqueeze.Proofs.Template.Lexemes
import TemplateSqueeze.Proofs.Template.Meaning

namespace TemplateSqueeze.Template

open Text Segment

variable {c : Char} {t r e : Text} {x v w : List Nat} {k offset : Nat} {us ks : List Lexeme}

/-- How many runs go from between a carriage return, escaped or not, and a line feed. -/
def joinedReturns : List Lexeme → Nat
  | [] => 0
  | u :: us =>
    if u.kind = .space then joinedReturns (us.drop (row us).length)
    else
      (if u.text.getLast? = some '\r' ∧ behindRun? us = some '\n' then 1 else 0) + joinedReturns us
termination_by us => us.length

/-- `w` is `v` less `k` line feeds. -/
structure LessFeeds (k : Nat) (v w : List Nat) : Prop where
  sublist : w.Sublist v
  length : w.length + k = v.length
  others : w.filter (· ≠ 10) = v.filter (· ≠ 10)

theorem lessFeeds_nil : LessFeeds 0 [] [] := ⟨.refl [], rfl, rfl⟩

theorem LessFeeds.append (h : LessFeeds k v w) (x : List Nat) :
    LessFeeds k (x ++ v) (x ++ w) where
  sublist := h.sublist.append_left x
  length := by
    have := h.length
    simp only [List.length_append]
    omega
  others := by rw [List.filter_append, List.filter_append, h.others]

theorem LessFeeds.of_cons (h : LessFeeds k v (10 :: w)) : LessFeeds (k + 1) v w where
  sublist := (List.sublist_cons_self 10 w).trans h.sublist
  length := by
    have := h.length
    rw [List.length_cons] at this
    omega
  others := h.others

theorem LessFeeds.eq_iff (h : LessFeeds k v w) : w = v ↔ k = 0 := by
  have hlen := h.length
  constructor
  · intro he
    rw [he] at hlen
    omega
  · intro hk
    exact h.sublist.eq_of_length (by omega)

theorem joinedReturns_cons {u : Lexeme} (h : u.kind ≠ .space)
    (hr : u.text.getLast? = some '\r' → behindRun? us ≠ some '\n') :
    joinedReturns (u :: us) = joinedReturns us := by
  rw [joinedReturns, if_neg h, if_neg fun hboth ↦ hr hboth.1 hboth.2, Nat.zero_add]

theorem joinedReturns_space {u : Lexeme} (h : u.kind = .space) :
    joinedReturns (u :: us) = joinedReturns (us.drop (row us).length) := by
  rw [joinedReturns, if_pos h]

theorem joinedReturns_append (hk : ∀ u ∈ ks, u.kind = .continuation)
    (h : ∀ u, us.head? = some u → u.kind ≠ .space) :
    joinedReturns (ks ++ us) = joinedReturns us := by
  induction ks with
  | nil => rfl
  | cons u ks ih =>
    rw [List.forall_mem_cons] at hk
    have hu : u.kind ≠ .space := by rw [hk.1]; decide
    rw [List.cons_append, joinedReturns_cons hu, ih hk.2]
    intro _
    rw [behindRun?_of_ne_space (kind_of_head?_append hk.2 h)]
    exact nofun

theorem joinedReturns_run {u : Lexeme} (h : u.kind = .space) {run : Run}
    (hrun : run = Run.extend ⟨1, r, offset⟩ offset r) :
    joinedReturns (lexemes run.rest) = joinedReturns (u :: lexemes r) ∧
      (run.spaces = 1 → joinedReturns (lexemes r) = joinedReturns (u :: lexemes r)) := by
  have hhead := kind_of_head?_drop_row (lexemes r)
  rw [joinedReturns_space h]
  constructor
  · have htrail : trail [u] = [] := trail_append_space h []
    have hk : u.kind ≠ .other := by rw [h]; decide
    have hrow : lexemes (Run.mk 1 r offset).rest = trail [u] ++ lexemes r := by
      rw [htrail, List.nil_append]
    have hrest := Run.lexemes_rest_extend [u] offset hrow
    rw [hrun, hrest, show [u] ++ row (lexemes r) = row (u :: lexemes r) from (row_cons hk _).symm]
    exact joinedReturns_append (fun u hu ↦ kind_of_mem_trail hu) hhead
  · intro hone
    rw [hrun, Run.spaces_extend] at hone
    have hnone : (row (lexemes r)).countP (·.kind = .space) = 0 := by
      simp only at hone
      omega
    rw [List.countP_eq_zero] at hnone
    conv_lhs => rw [← row_append_drop (lexemes r)]
    refine joinedReturns_append (fun u hu ↦ kind_of_mem_row hu ?_) hhead
    simpa using hnone u hu

def Inert (e : Text) : Prop := ∀ r, joinedReturns (lexemes (e ++ r)) = joinedReturns (lexemes r)

theorem inert_nil : Inert [] := fun _ ↦ rfl

theorem Inert.append {e' : Text} (h : Inert e) (h' : Inert e') : Inert (e ++ e') := by
  intro r
  rw [List.append_assoc, h, h']

theorem inert_singleton (h : c ≠ ' ' ∧ c ≠ '\\' ∧ c ≠ '\r') : Inert [c] := by
  intro r
  have hfirst : Lexeme.first c r = ⟨.other, [c]⟩ := by
    rw [Lexeme.first, if_neg h.1, if_neg h.2.1]
  rw [List.singleton_append, lexemes_cons, hfirst, joinedReturns_cons (by simp)]
  · rfl
  · intro hlast
    exact absurd (Option.some.inj hlast) h.2.2

theorem inert_of_all {m : Text} (h : ∀ c ∈ m, c ≠ ' ' ∧ c ≠ '\\' ∧ c ≠ '\r') : Inert m := by
  induction m with
  | nil => exact inert_nil
  | cons c m ih =>
    rw [List.forall_mem_cons] at h
    exact (inert_singleton h.1).append (ih h.2)

theorem inert_digits {ds : Text} (h : ds.all isHexDigit) : Inert ds :=
  inert_of_all fun c hc ↦ by
    have hc := List.all_eq_true.1 h c hc
    exact ⟨hexDigit_ne hc (by decide), hexDigit_ne hc (by decide), hexDigit_ne hc (by decide)⟩

theorem inert_braced {ds : Text} (h : ds.all isHexDigit) : Inert ('\x7b' :: (ds ++ ['\x7d'])) :=
  (inert_singleton (c := '\x7b') (by decide)).append
    ((inert_digits h).append (inert_singleton (by decide)))

theorem inert_pair : Inert ['\r', '\n'] := by
  intro r
  have hreturn : Lexeme.first '\r' (['\n'] ++ r) = ⟨.other, ['\r']⟩ := rfl
  have hfeed : lexemes ('\n' :: r) = ⟨.other, ['\n']⟩ :: lexemes r := lexemes_cons _ _
  rw [List.cons_append, lexemes_cons, hreturn, joinedReturns_cons (by simp)]
  · exact inert_singleton (c := '\n') (by decide) r
  · intro _
    have hdrop : lexemes (('\r' :: (['\n'] ++ r)).drop (['\r'] : Text).length) =
        ⟨.other, ['\n']⟩ :: lexemes r := hfeed
    rw [hdrop, behindRun?_of_ne_space]
    · exact nofun
    · intro u hu
      cases hu
      exact nofun

theorem escapeBody_of_other {d : Char} (h : (escapeBody (d :: t)).1 = .other) :
    (escapeBody (d :: t)).2 = [d] := by
  generalize he : escapeBody (d :: t) = b at h
  unfold escapeBody at he
  split at he
  · subst he
    cases h
  · subst he
    cases h
  · subst he
    cases h
  · subst he
    cases h
  · subst he
    cases h
  · next c r _ _ _ _ _ hc =>
    subst he
    rw [(List.cons.inj hc).1]
  · next hc => cases hc

theorem inert_escape {d : Char} {m : Text} (hm : Inert m) (hd : d ≠ '\r')
    (h : escape? (d :: (m ++ r)) = some (x, r)) (hx : 32 ∉ x) (hne : x ≠ []) :
    joinedReturns (lexemes ('\\' :: d :: (m ++ r))) = joinedReturns (lexemes r) := by
  obtain ⟨hspace, hcontinuation, -⟩ := escape?_escapeBody h
  have hkind : (escapeBody (d :: (m ++ r))).1 = .other := by
    cases hk : (escapeBody (d :: (m ++ r))).1 with
    | space =>
      rw [(hspace hk).1] at hx
      exact absurd (List.mem_singleton_self 32) hx
    | continuation => exact absurd (hcontinuation hk).1 hne
    | other => rfl
  have hfirst : Lexeme.first '\\' (d :: (m ++ r)) = ⟨.other, ['\\', d]⟩ := by
    have he : Lexeme.first '\\' (d :: (m ++ r)) = ⟨(escapeBody (d :: (m ++ r))).1,
      '\\' :: (escapeBody (d :: (m ++ r))).2⟩ := rfl
    rw [he, escapeBody_of_other hkind, hkind]
  rw [lexemes_cons, hfirst, joinedReturns_cons (by simp)]
  · exact hm r
  · intro hlast
    exact absurd (Option.some.inj hlast) hd

theorem lexemes_continuation (h : escape? (e ++ r) = some ([], r)) :
    lexemes ('\\' :: (e ++ r)) = ⟨.continuation, '\\' :: e⟩ :: lexemes r := by
  obtain ⟨hspace, hcontinuation, hother⟩ := escape?_escapeBody h
  have hfirst : Lexeme.first '\\' (e ++ r) = ⟨(escapeBody (e ++ r)).1,
      '\\' :: (escapeBody (e ++ r)).2⟩ := rfl
  cases hk : (escapeBody (e ++ r)).1 with
  | space => exact absurd (hspace hk).1 nofun
  | continuation =>
    have he : (escapeBody (e ++ r)).2 = e := (List.append_cancel_right (hcontinuation hk).2).symm
    rw [lexemes_cons, hfirst, hk, he, List.length_cons, List.drop_succ_cons, List.drop_left]
  | other => exact absurd rfl (hother hk).1

theorem joinedReturns_escape (h : escape? t = some (x, r)) (hx : 32 ∉ x)
    (hr : t = '\r' :: r → r.head? = some '\n') :
    joinedReturns (lexemes ('\\' :: t)) = joinedReturns (lexemes r) := by
  cases escape_of_escape? h with
  | @braced ds hall =>
    have ht : '\x7b' :: (ds ++ '\x7d' :: r) = '\x7b' :: (ds ++ ['\x7d']) ++ r := by simp
    rw [ht] at h ⊢
    exact inert_escape (inert_braced hall) (by decide) h hx (utf16_ne_nil _)
  | unicode hall => exact inert_escape (inert_digits hall) (by decide) h hx (List.cons_ne_nil _ _)
  | hex hall => exact inert_escape (inert_digits hall) (by decide) h hx (List.cons_ne_nil _ _)
  | null => exact inert_escape inert_nil (by decide) h hx (List.cons_ne_nil _ _)
  | continuedPair =>
    have hu : lexemes ('\\' :: '\r' :: '\n' :: r) = _ :=
      lexemes_continuation (e := ['\r', '\n']) h
    rw [hu, joinedReturns_cons (by simp)]
    intro hlast
    cases hlast
  | @continuation c _ hpair =>
    have hu : lexemes ('\\' :: c :: r) = _ := lexemes_continuation (e := [c]) h
    rw [hu, joinedReturns_cons (by simp)]
    intro hlast
    obtain rfl : c = '\r' := Option.some.inj hlast
    exact absurd ⟨rfl, hr rfl⟩ hpair
  | @char c _ _ _ hl =>
    refine inert_escape inert_nil ?_ h hx (utf16_ne_nil _)
    rintro rfl
    cases hl

theorem joinedReturns_element (h : element? t = some (x, r)) (hx : 32 ∉ x)
    (hr : t = '\r' :: r ∨ t = '\\' :: '\r' :: r → r.head? = some '\n') :
    joinedReturns (lexemes t) = joinedReturns (lexemes r) := by
  cases t with
  | nil => cases h
  | cons c t =>
    rw [element?] at h
    split at h
    · next hc =>
      subst hc
      exact joinedReturns_escape h hx fun ht ↦ hr (.inr (by rw [ht]))
    · next hc =>
      obtain ⟨-, h⟩ := Option.ite_none_left_eq_some.1 h
      obtain ⟨-, h⟩ := Option.ite_none_left_eq_some.1 h
      split at h
      · next hreturn =>
        subst hreturn
        cases h
        by_cases hfeed : t.head? = some '\n'
        · obtain ⟨t, rfl⟩ := List.head?_eq_some_iff.1 hfeed
          exact inert_pair t
        · rw [if_neg hfeed] at hr
          exact absurd (hr (.inl rfl)) hfeed
      · next hreturn =>
        cases h
        refine inert_singleton ⟨?_, hc, hreturn⟩ _
        rintro rfl
        exact hx (by decide)

theorem head?_squeezeFrom_feed (h : ∀ c r, t = c :: r → (Lexeme.first c r).kind ≠ .space)
    (offset : Nat) :
    (text (squeezeFrom none offset t)).head? = some '\n' ↔ t.head? = some '\n' := by
  constructor
  · intro hhead
    rcases head?_squeezeFrom h offset with he | he
    · rwa [he] at hhead
    · rw [he] at hhead
      cases hhead
  · intro hhead
    obtain ⟨t, rfl⟩ := List.head?_eq_some_iff.1 hhead
    obtain ⟨o, ho⟩ := copied_singleton (c := '\n') (by decide) offset t
    rw [List.singleton_append] at ho
    rw [ho]
    rfl

theorem head?_squeezeFrom_eq_feed (h : t.head? ≠ some '\n') (offset : Nat) :
    (text (squeezeFrom none offset t)).head? = some '\n' ↔
      behindRun? (lexemes t) = some '\n' := by
  cases t with
  | nil =>
    have hnone : (text (Held.write none)).head? = none := rfl
    have hbehind : behindRun? [] = none := rfl
    rw [squeezeFrom, lexemes, hnone, hbehind]
  | cons c t =>
    by_cases hk : (Lexeme.first c t).kind = .space
    · rw [behindRun?_lexemes hk (offset + (Lexeme.first c t).text.size) rfl, squeezeFrom]
      simp only [if_pos hk]
      split
      · rw [text_append]
        exact head?_squeezeFrom_feed (Run.kind_rest_extend (.inl rfl)) _
      · have hne : (Lexeme.first c t).text ≠ [] :=
          List.ne_nil_of_length_pos (Lexeme.length_first_pos c t)
        have hfirst : (text (Held.write none)) = [] := rfl
        rw [text_append, text_append, text_copy, hfirst, List.nil_append,
          List.head?_append_of_ne_nil _ hne, head?_first]
        exact iff_of_false h (Option.some_ne_none _).symm
    · rw [lexemes_cons, behindRun?_of_ne_space]
      · rw [head?_squeezeFrom_feed fun _ _ he ↦ by cases he; exact hk]
        exact iff_of_false h (Option.some_ne_none _).symm
      · intro u hu
        cases hu
        exact hk

/-- Squeezing takes nothing but spaces from what the text cooks to, and a line feed for each return
that is joined to one. -/
def LosesFeeds (t : Text) : Prop := ∀ v offset, cook? t = some v →
  ∃ w, cook? (text (squeezeFrom none offset t)) = some w ∧
    LessFeeds (joinedReturns (lexemes t)) (v.filter (· ≠ 32)) (w.filter (· ≠ 32))

theorem losesFeeds_space (h : (Lexeme.first c t).kind = .space)
    (ih : ∀ s, s <:+ (c :: t).drop (Lexeme.first c t).text.length → LosesFeeds s) :
    LosesFeeds (c :: t) := by
  intro v offset hv
  obtain ⟨x, r, v', hx, hr, rfl⟩ := exists_element? hv
  obtain ⟨rfl, he⟩ := (element?_first hx).1 h
  obtain ⟨hreads, -⟩ := reads_space h
  rw [drop_first he] at ih
  rw [lexemes_cons, drop_first he]
  obtain ⟨hgone, halone⟩ := text_squeezeFrom_space h he offset rfl
  obtain ⟨k, v'', rfl, hk, hrest, -⟩ :=
    Run.cook?_extend ⟨1, r, offset + (Lexeme.first c t).text.size⟩
      (offset + (Lexeme.first c t).text.size) r v' hr hr
  obtain ⟨hjoined, hjoined'⟩ := joinedReturns_run h
    (rfl : _ = Run.extend ⟨1, r, offset + (Lexeme.first c t).text.size⟩ _ r)
  have hspaces : ([32] ++ (List.replicate k 32 ++ v'')).filter (· ≠ 32) = v''.filter (· ≠ 32) := by
    simp
  simp only at hk
  rw [hk] at hgone halone
  rw [hspaces]
  cases k with
  | zero =>
    obtain ⟨w, hw, hless⟩ :=
      ih r (List.suffix_refl r) v'' (offset + (Lexeme.first c t).text.size) hr
    rw [hjoined' hk] at hless
    refine ⟨[32] ++ w, ?_, by simpa using hless⟩
    rw [halone (by decide)]
    exact cook?_append (hreads _) hw
  | succ k =>
    obtain ⟨w, hw, hless⟩ :=
      ih _ (Run.suffix_extend (List.suffix_refl r) (List.suffix_refl r)) v'' _ hrest
    rw [hjoined] at hless
    exact ⟨w, by rw [hgone (by omega)]; exact hw, hless⟩

/-- A carriage return without a line feed, bare or escaped, with what it cooks to. -/
inductive Return : Text → List Nat → Prop
  | bare : Return ['\r'] [10]
  | escaped : Return ['\\', '\r'] []

namespace Return

theorem reads (h : Return e x) (hr : r.head? ≠ some '\n') : element? (e ++ r) = some (x, r) := by
  cases h with
  | bare =>
    have he : element? (['\r'] ++ r) = some ([10], if r.head? = some '\n' then r.tail else r) := rfl
    rw [he, if_neg hr]
  | escaped =>
    have he : element? (['\\', '\r'] ++ r) =
        some ([], if '\r' = '\r' ∧ r.head? = some '\n' then r.tail else r) := rfl
    rw [he, if_neg fun hboth ↦ hr hboth.2]

theorem reads_feed (h : Return e x) (r : Text) : element? (e ++ '\n' :: r) = some (x, r) := by
  cases h <;> rfl

theorem exists_first (h : Return e x) (hr : r.head? ≠ some '\n') : ∃ c t kind, e ++ r = c :: t ∧
    kind ≠ .space ∧ Lexeme.first c t = ⟨kind, e⟩ := by
  cases h with
  | bare => exact ⟨'\r', r, .other, rfl, nofun, rfl⟩
  | escaped =>
    have hu := lexemes_continuation (e := ['\r']) (reads .escaped hr)
    rw [lexemes_cons] at hu
    exact ⟨'\\', '\r' :: r, .continuation, rfl, nofun, (List.cons.inj hu).1⟩

theorem lexemes_append (h : Return e x) (hr : r.head? ≠ some '\n') :
    ∃ u : Lexeme, lexemes (e ++ r) = u :: lexemes r ∧ u.kind ≠ .space ∧
      u.text.getLast? = some '\r' := by
  obtain ⟨c, t, kind, he, hk, hfirst⟩ := h.exists_first hr
  refine ⟨⟨kind, e⟩, ?_, hk, by cases h <;> rfl⟩
  rw [he, lexemes_cons, hfirst, ← he, List.drop_left]

theorem text_squeezeFrom (h : Return e x) (hr : r.head? ≠ some '\n') (offset : Nat) :
    text (squeezeFrom none offset (e ++ r)) =
      e ++ text (squeezeFrom none (offset + e.size) r) := by
  obtain ⟨c, t, kind, he, hk, hfirst⟩ := h.exists_first hr
  rw [he, squeezeFrom_cons (by rwa [hfirst]), hfirst, ← he, List.drop_left]
  refine text_squeezeFrom_held_eq (u := ⟨e, offset⟩) (fun next ↦ ?_) _ _
  cases h <;> rfl

end Return

theorem losesFeeds_return (h : Return e x) (hr : r.head? ≠ some '\n') (ih : LosesFeeds r) :
    LosesFeeds (e ++ r) := by
  intro v offset hv
  rw [cook?_of_element? (h.reads hr)] at hv
  obtain ⟨v', hv', rfl⟩ := Option.map_eq_some_iff.1 hv
  obtain ⟨w, hw, hless⟩ := ih v' (offset + e.size) hv'
  obtain ⟨u, hu, hkind, hlast⟩ := h.lexemes_append hr
  have hfeed := head?_squeezeFrom_eq_feed hr (offset + e.size)
  rw [h.text_squeezeFrom hr, hu, List.filter_append]
  by_cases hs : (text (squeezeFrom none (offset + e.size) r)).head? = some '\n'
  · obtain ⟨s, hs'⟩ := List.head?_eq_some_iff.1 hs
    have hcooked : cook? ('\n' :: s) = (cook? s).map ([10] ++ ·) := cook?_of_element? rfl
    rw [hs', hcooked] at hw
    obtain ⟨w, hw', rfl⟩ := Option.map_eq_some_iff.1 hw
    have hone : joinedReturns (u :: lexemes r) = joinedReturns (lexemes r) + 1 := by
      rw [joinedReturns, if_neg hkind, if_pos ⟨hlast, hfeed.1 hs⟩, Nat.add_comm]
    refine ⟨x ++ w, ?_, ?_⟩
    · rw [hs', cook?_of_element? (h.reads_feed s), hw']
      rfl
    · rw [hone, List.filter_append]
      exact hless.of_cons.append _
  · have hnone : joinedReturns (u :: lexemes r) = joinedReturns (lexemes r) :=
      joinedReturns_cons hkind fun _ hb ↦ hs (hfeed.2 hb)
    refine ⟨x ++ w, cook?_append (h.reads hs) hw, ?_⟩
    rw [hnone, List.filter_append]
    exact hless.append _

theorem losesFeeds_element (h : element? t = some (x, r)) (hx : 32 ∉ x) (ih : LosesFeeds r) :
    LosesFeeds t := by
  by_cases hr : t = '\r' :: r ∨ t = '\\' :: '\r' :: r → r.head? = some '\n'
  · have hjoined := joinedReturns_element h hx hr
    obtain ⟨e, rfl, he⟩ := exists_element h hx
    intro v offset hv
    rw [cook?_of_element? h] at hv
    obtain ⟨v', hv', rfl⟩ := Option.map_eq_some_iff.1 hv
    have hfeed : e = ['\r'] ∨ e = ['\\', '\r'] → r.head? = some '\n' := by
      rintro (rfl | rfl)
      · exact hr (.inl rfl)
      · exact hr (.inr rfl)
    obtain ⟨s, offset', hs, -, hread⟩ := he.exists_write hfeed offset
    obtain ⟨w, hw, hless⟩ := ih v' offset' hv'
    refine ⟨x ++ w, by rw [hs]; exact cook?_append hread hw, ?_⟩
    rw [hjoined, List.filter_append, List.filter_append]
    exact hless.append _
  · obtain ⟨ht, hfeed⟩ := Classical.not_imp.1 hr
    rcases ht with rfl | rfl
    · exact losesFeeds_return .bare hfeed ih
    · exact losesFeeds_return .escaped hfeed ih

theorem losesFeeds (t : Text) : LosesFeeds t := by
  -- By the length, as a run takes many elements at once.
  induction hn : t.length using Nat.strongRecOn generalizing t with
  | _ n ih =>
    have ih' : ∀ s : Text, s.length < t.length → LosesFeeds s := fun s hs ↦
      ih s.length (hn ▸ hs) s rfl
    cases t with
    | nil =>
      intro v offset hv
      rw [cook?, Option.some.injEq] at hv
      refine ⟨[], by rw [text_squeezeFrom_nil, cook?], ?_⟩
      rw [← hv, lexemes, joinedReturns]
      exact lessFeeds_nil
    | cons c t =>
      by_cases hk : (Lexeme.first c t).kind = .space
      · refine losesFeeds_space hk fun s hs ↦ ih' s ?_
        exact Nat.lt_of_le_of_lt hs.length_le (Lexeme.length_drop_first_lt c t)
      · intro v offset hv
        obtain ⟨x, r, v', hx, -, -⟩ := exists_element? hv
        exact losesFeeds_element hx (not_mem_of_element? hx hk)
          (ih' r (length_of_element? hx)) v offset hv

/-- Of what a raw text cooks to, squeezing loses spaces, and exactly one line feed for every run
that goes from between a carriage return and a line feed. So all but the spaces is kept if and only
if there is no such run. -/
theorem exists_cook?_squeeze {raw : Text} (h : cook? raw = some v) (origin : Nat) :
    ∃ w, cook? (squeeze raw origin).text = some w ∧
      LessFeeds (joinedReturns (lexemes raw)) (v.filter (· ≠ 32)) (w.filter (· ≠ 32)) ∧
      (w.filter (· ≠ 32) = v.filter (· ≠ 32) ↔ joinedReturns (lexemes raw) = 0) := by
  obtain ⟨w, hw, hless⟩ := losesFeeds raw v origin h
  exact ⟨w, hw, hless, hless.eq_iff⟩

theorem exists_cook?_squeeze_joined :
    cook? "\r  \n\\\r \\x20\n$  \x7b\r\n".toList =
        some [10, 32, 32, 10, 32, 32, 10, 36, 32, 32, 123, 10] ∧
      ∃ w, cook? (squeeze "\r  \n\\\r \\x20\n$  \x7b\r\n".toList 0).text = some w ∧
        LessFeeds 2 [10, 10, 10, 36, 123, 10] (w.filter (· ≠ 32)) := by
  have hcook : cook? "\r  \n\\\r \\x20\n$  \x7b\r\n".toList =
      some [10, 32, 32, 10, 32, 32, 10, 36, 32, 32, 123, 10] := by cbv
  have hjoined : joinedReturns (lexemes "\r  \n\\\r \\x20\n$  \x7b\r\n".toList) = 2 := by cbv
  obtain ⟨w, hw, hless, -⟩ := exists_cook?_squeeze hcook 0
  rw [hjoined] at hless
  exact ⟨hcook, w, hw, hless⟩

/-- A line end can be lost: with the run between them gone, a return and a line feed are one. -/
theorem not_forall_filter_cook?_squeeze : ¬ ∀ (raw : Text) (v : List Nat) (origin : Nat),
    cook? raw = some v → ∃ w, cook? (squeeze raw origin).text = some w ∧
      w.filter (· ≠ 32) = v.filter (· ≠ 32) := by
  intro h
  have hcook : cook? "\r  \n".toList = some [10, 32, 32, 10] := by cbv
  have hsqueezed : cook? (squeeze "\r  \n".toList 0).text = some [10] := by cbv
  obtain ⟨w, hw, hsame⟩ := h "\r  \n".toList [10, 32, 32, 10] 0 hcook
  rw [hsqueezed] at hw
  cases hw
  revert hsame
  decide

end TemplateSqueeze.Template
