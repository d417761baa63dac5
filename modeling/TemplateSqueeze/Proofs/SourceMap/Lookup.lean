import Mathlib.Data.List.Basic
import TemplateSqueeze.Proofs.Text.Position
import TemplateSqueeze.SourceMap.Carry

namespace TemplateSqueeze

namespace Position

variable {p q r : Position}

theorem precedes_trans (h : p.precedes q) (h' : q.precedes r) : p.precedes r := by
  rw [precedes_iff] at *
  omega

theorem precedes_irrefl (p : Position) : ¬ p.precedes p := by
  rw [precedes_iff]
  omega

theorem precedes_of_not_precedes (h : ¬ q.precedes p) (hne : p ≠ q) : p.precedes q := by
  rw [precedes_iff] at *
  by_contra hn
  refine hne ?_
  obtain ⟨pl, pc⟩ := p
  obtain ⟨ql, qc⟩ := q
  simp only [Position.mk.injEq] at *
  omega

theorem precedes_of_precedes_of_le (h : p.precedes q) (h' : ¬ r.precedes q) : p.precedes r := by
  rw [precedes_iff] at *
  omega

theorem precedes_of_le_of_precedes (h : ¬ q.precedes p) (h' : q.precedes r) : p.precedes r := by
  rw [precedes_iff] at *
  omega

theorem le_trans (h : ¬ q.precedes p) (h' : ¬ r.precedes q) : ¬ r.precedes p := by
  rw [precedes_iff] at *
  omega

theorem eq_of_le (h : ¬ q.precedes p) (h' : ¬ p.precedes q) : p = q := by
  by_contra hne
  exact h' (precedes_of_not_precedes h hne)

end Position

namespace SourceMap

variable {tokens : List Token} {p : Position} {t u : Token}

def Sorted (tokens : List Token) : Prop :=
  tokens.Pairwise fun t u ↦ ¬ u.position.precedes t.position

instance : Decidable (Sorted tokens) := inferInstanceAs (Decidable (tokens.Pairwise _))

theorem Sorted.of_strict (h : tokens.Pairwise fun t u ↦ t.position.precedes u.position) :
    Sorted tokens :=
  h.imp fun h h' ↦ Position.precedes_irrefl _ (Position.precedes_trans h h')

theorem Sorted.mem_takeWhile (hs : Sorted tokens) (hp : ∀ t ∈ tokens, t.position ≠ p)
    (hu : u ∈ tokens) (hle : ¬ p.precedes u.position) :
    u ∈ tokens.takeWhile (·.position.precedes p) := by
  induction tokens with
  | nil => cases hu
  | cons t ts ih =>
    obtain ⟨ht, hts⟩ := List.pairwise_cons.1 hs
    have hfirst : t.position.precedes p := by
      refine Position.precedes_of_not_precedes ?_ (hp t (by simp))
      rcases List.mem_cons.1 hu with rfl | hu
      · exact hle
      · exact fun h ↦ hle (Position.precedes_of_precedes_of_le h (ht u hu))
    rw [List.takeWhile_cons, if_pos hfirst]
    rcases List.mem_cons.1 hu with rfl | hu
    · simp
    · exact List.mem_cons_of_mem _ (ih hts (fun t h ↦ hp t (List.mem_cons_of_mem _ h)) hu)

/-- The token stands at the position or before it, and no other one stands closer. -/
structure Governs (tokens : List Token) (p : Position) (t : Token) : Prop where
  mem : t ∈ tokens
  le : ¬ p.precedes t.position
  closest : ∀ u ∈ tokens, ¬ p.precedes u.position → ¬ t.position.precedes u.position

theorem Governs.position_eq (h : Governs tokens p t) (h' : Governs tokens p u) :
    t.position = u.position :=
  Position.eq_of_le (h'.closest t h.mem h.le) (h.closest u h'.mem h'.le)

theorem Governs.eq (hs : tokens.Pairwise fun t u ↦ t.position.precedes u.position)
    (h : Governs tokens p t) (h' : Governs tokens p u) : t = u := by
  refine List.Pairwise.forall_of_forall_of_flip (R := fun t u ↦ t.position = u.position → t = u)
    (fun _ _ _ ↦ rfl) (hs.imp fun hp he ↦ ?_) (hs.imp fun hp he ↦ ?_) h.mem h'.mem
    (h.position_eq h')
  · rw [he] at hp
    exact absurd hp (Position.precedes_irrefl _)
  · rw [he] at hp
    exact absurd hp (Position.precedes_irrefl _)

theorem Governs.of_le {q : Position} (h : Governs tokens p t) (hle : ¬ q.precedes p)
    (hbetween : ∀ u ∈ tokens, p.precedes u.position → q.precedes u.position) :
    Governs tokens q t := by
  refine ⟨h.mem, Position.le_trans h.le hle, fun u hu hq ↦ h.closest u hu fun hp ↦ ?_⟩
  exact hq (hbetween u hu hp)

theorem governs_of_lookup? (hs : Sorted tokens) (h : lookup? tokens p = some t) :
    Governs tokens p t := by
  unfold lookup? at h
  split at h
  · next t' hf =>
    cases h
    have hp := List.find?_some hf
    rw [decide_eq_true_eq] at hp
    exact ⟨List.mem_of_find?_eq_some hf, by rw [hp]; exact Position.precedes_irrefl p,
      fun u _ hu ↦ by rwa [hp]⟩
  · next hf =>
    have hp : ∀ t ∈ tokens, t.position ≠ p := by simpa using hf
    obtain ⟨init, hi⟩ := List.getLast?_eq_some_iff.1 h
    have hmem : t ∈ tokens.takeWhile (·.position.precedes p) := by rw [hi]; simp
    have hpre := List.all_takeWhile (p := fun t : Token ↦ t.position.precedes p) (l := tokens)
    rw [List.all_eq_true] at hpre
    have hsub := List.takeWhile_sublist (fun t : Token ↦ t.position.precedes p) (l := tokens)
    refine ⟨hsub.subset hmem, fun h' ↦ Position.precedes_irrefl p
      (Position.precedes_trans h' (hpre t hmem)), fun u hu hle ↦ ?_⟩
    have hu' := hs.mem_takeWhile hp hu hle
    have hs' := hs.sublist hsub
    rw [hi] at hs' hu'
    rcases List.mem_append.1 hu' with hu' | hu'
    · exact (List.pairwise_append.1 hs').2.2 u hu' t (by simp)
    · rw [List.mem_singleton.1 hu']
      exact Position.precedes_irrefl _

theorem exists_lookup? (hs : Sorted tokens) (hu : u ∈ tokens) (hle : ¬ p.precedes u.position) :
    ∃ t, lookup? tokens p = some t := by
  unfold lookup?
  split
  · next t _ => exact ⟨t, rfl⟩
  · next hf =>
    have hp : ∀ t ∈ tokens, t.position ≠ p := by simpa using hf
    have := hs.mem_takeWhile hp hu hle
    exact ⟨_, List.getLast?_eq_getLast_of_ne_nil (List.ne_nil_of_mem this)⟩

def placeOf? (tokens : List Token) (p : Position) : Option Place :=
  ((lookup? tokens p).map (·.placeAt p)).filter (·.source.isSome)

theorem Token.placeAt_of_not_ranged (h : t.ranged = false) : t.placeAt p = t.place := by
  simp [placeAt, h]

theorem Token.upTo_iff : t.upTo u ↔ t.position.precedes u.position ∨
    t.position = u.position ∧ (t.isMapped ∨ ¬ u.isMapped) := by
  simp [Token.upTo]

theorem Token.upTo_trans (a b c : Token) (h : a.upTo b) (h' : b.upTo c) : a.upTo c := by
  rw [Token.upTo_iff] at *
  rcases h with h | ⟨h, hm⟩ <;> rcases h' with h' | ⟨h', hm'⟩
  · exact .inl (Position.precedes_trans h h')
  · exact .inl (h' ▸ h)
  · exact .inl (h ▸ h')
  · exact .inr ⟨h.trans h', hm.elim .inl fun hb ↦ hm'.elim (fun hb' ↦ absurd hb' hb) .inr⟩

theorem Token.upTo_total (a b : Token) : a.upTo b || b.upTo a := by
  rw [Bool.or_eq_true, Token.upTo_iff, Token.upTo_iff]
  by_cases heq : a.position = b.position
  · by_cases hb : b.isMapped
    · exact .inr (.inr ⟨heq.symm, .inl hb⟩)
    · exact .inl (.inr ⟨heq, .inr hb⟩)
  · by_cases h : b.position.precedes a.position
    · exact .inr (.inl h)
    · exact .inl (.inl (Position.precedes_of_not_precedes h heq))

theorem eraseRepsBy_loop_eq (r : Token → Token → Bool) (t : Token) (tokens acc : List Token) :
    List.eraseRepsBy.loop r t tokens acc = acc.reverse ++ List.eraseRepsBy.loop r t tokens [] := by
  induction tokens generalizing t acc with
  | nil => simp [List.eraseRepsBy.loop]
  | cons u tokens ih =>
    rw [List.eraseRepsBy.loop, List.eraseRepsBy.loop]
    split
    · exact ih t acc
    · rw [ih u (t :: acc), ih u [t]]
      simp

theorem eraseReps_cons_cons (t u : Token) (tokens : List Token) : (t :: u :: tokens).eraseReps =
    if t = u then (t :: tokens).eraseReps else t :: (u :: tokens).eraseReps := by
  simp only [List.eraseReps, List.eraseRepsBy, List.eraseRepsBy.loop]
  split
  · next h => rw [if_pos (beq_iff_eq.1 h)]
  · next h =>
    rw [if_neg (fun he ↦ by simp [he] at h), eraseRepsBy_loop_eq]
    rfl

theorem eraseReps_cons_sublist (t : Token) (tokens : List Token) :
    (t :: tokens).eraseReps.Sublist (t :: tokens) ∧
      ∀ u ∈ t :: tokens, u ∈ (t :: tokens).eraseReps := by
  induction tokens generalizing t with
  | nil => exact ⟨.refl _, fun _ h ↦ h⟩
  | cons v tokens ih =>
    rw [eraseReps_cons_cons]
    split
    · next h =>
      subst h
      exact ⟨(ih t).1.trans (.cons _ (.refl _)), fun u hu ↦ (ih t).2 u (by simpa using hu)⟩
    · refine ⟨(ih v).1.cons_cons t, fun u hu ↦ ?_⟩
      rcases List.mem_cons.1 hu with rfl | hu
      · exact List.mem_cons_self
      · exact List.mem_cons_of_mem t ((ih v).2 u hu)

theorem eraseReps_sublist (tokens : List Token) : tokens.eraseReps.Sublist tokens := by
  cases tokens with
  | nil => exact .slnil
  | cons t tokens => exact (eraseReps_cons_sublist t tokens).1

theorem mem_eraseReps : t ∈ tokens.eraseReps ↔ t ∈ tokens := by
  refine ⟨fun h ↦ (eraseReps_sublist tokens).subset h, fun h ↦ ?_⟩
  cases tokens with
  | nil => cases h
  | cons u tokens => exact (eraseReps_cons_sublist u tokens).2 t h

theorem governs_eraseReps : Governs tokens.eraseReps p t ↔ Governs tokens p t := by
  constructor
  · rintro ⟨hm, hle, hc⟩
    exact ⟨mem_eraseReps.1 hm, hle, fun u hu ↦ hc u (mem_eraseReps.2 hu)⟩
  · rintro ⟨hm, hle, hc⟩
    exact ⟨mem_eraseReps.2 hm, hle, fun u hu ↦ hc u (mem_eraseReps.1 hu)⟩

theorem mem_of_mem_dropRepeated (h : t ∈ dropRepeated tokens) : t ∈ tokens := by
  fun_induction dropRepeated tokens with
  | case1 => exact h
  | case2 => exact h
  | case3 t' u ts _ ih =>
    rcases List.mem_cons.1 (ih h) with rfl | h
    · simp
    · simp [h]
  | case4 t' u ts _ ih =>
    rcases List.mem_cons.1 h with rfl | h
    · simp
    · exact List.mem_cons_of_mem _ (ih h)

theorem exists_mem_dropRepeated (tokens : List Token) :
    ∀ t ∈ tokens, ∃ u ∈ dropRepeated tokens, u.position = t.position := by
  fun_induction dropRepeated tokens with
  | case1 => nofun
  | case2 t => exact fun u hu ↦ ⟨u, hu, rfl⟩
  | case3 t u ts heq ih =>
    simp only [List.forall_mem_cons] at ih ⊢
    exact ⟨ih.1, heq ▸ ih.1, ih.2⟩
  | case4 t u ts _ ih =>
    refine List.forall_mem_cons.2 ⟨⟨t, by simp, rfl⟩, fun v hv ↦ ?_⟩
    obtain ⟨w, hw, hp⟩ := ih v hv
    exact ⟨w, List.mem_cons_of_mem _ hw, hp⟩

theorem Sorted.precedes_of_ne (hs : Sorted (t :: u :: tokens)) (hne : t.position ≠ u.position) :
    ∀ v ∈ u :: tokens, t.position.precedes v.position := by
  obtain ⟨ht, hrest⟩ := List.pairwise_cons.1 hs
  have hu := Position.precedes_of_not_precedes (ht u List.mem_cons_self) hne
  refine List.forall_mem_cons.2 ⟨hu, ?_⟩
  intro v hv
  exact Position.precedes_of_precedes_of_le hu ((List.pairwise_cons.1 hrest).1 v hv)

theorem pairwise_dropRepeated (hs : Sorted tokens) :
    (dropRepeated tokens).Pairwise fun t u ↦ t.position.precedes u.position := by
  fun_induction dropRepeated tokens with
  | case1 => exact List.Pairwise.nil
  | case2 => exact List.pairwise_singleton _ _
  | case3 t u ts _ ih =>
    refine ih (hs.sublist ?_)
    exact List.cons_sublist_cons.2 (List.sublist_cons_self u ts)
  | case4 t u ts hne ih =>
    refine List.pairwise_cons.2 ⟨fun v hv ↦ ?_, ih (List.pairwise_cons.1 hs).2⟩
    exact hs.precedes_of_ne hne v (mem_of_mem_dropRepeated hv)

theorem sorted_mergeSort (tokens : List Token) : Sorted (tokens.mergeSort Token.upTo) := by
  refine (List.pairwise_mergeSort Token.upTo_trans Token.upTo_total tokens).imp fun h h' ↦ ?_
  rcases Token.upTo_iff.1 h with h | ⟨h, -⟩
  · exact Position.precedes_irrefl _ (Position.precedes_trans h h')
  · rw [h] at h'
    exact Position.precedes_irrefl _ h'

theorem mem_of_mem_settled (h : t ∈ settled tokens) : t ∈ tokens :=
  List.mem_mergeSort.1 (mem_of_mem_dropRepeated h)

theorem exists_mem_settled (h : t ∈ tokens) : ∃ u ∈ settled tokens, u.position = t.position :=
  exists_mem_dropRepeated _ t (List.mem_mergeSort.2 h)

theorem pairwise_settled (tokens : List Token) :
    (settled tokens).Pairwise fun t u ↦ t.position.precedes u.position :=
  pairwise_dropRepeated (sorted_mergeSort tokens)

theorem governs_of_lookup?_settled (h : lookup? (settled tokens) p = some t) :
    Governs tokens p t := by
  obtain ⟨hm, hle, hmax⟩ := governs_of_lookup? (.of_strict (pairwise_settled tokens)) h
  refine ⟨mem_of_mem_settled hm, hle, fun u hu hp ↦ ?_⟩
  obtain ⟨v, hv, hvp⟩ := exists_mem_settled hu
  rw [← hvp] at hp ⊢
  exact hmax v hv hp

theorem exists_lookup?_settled (hu : u ∈ tokens) (hle : ¬ p.precedes u.position) :
    ∃ t, lookup? (settled tokens) p = some t := by
  obtain ⟨v, hv, hvp⟩ := exists_mem_settled hu
  exact exists_lookup? (.of_strict (pairwise_settled tokens)) hv (by rwa [hvp])

end SourceMap

end TemplateSqueeze
