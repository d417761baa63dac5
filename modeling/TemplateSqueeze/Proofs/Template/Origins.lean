import TemplateSqueeze.Proofs.Template.Runs
import TemplateSqueeze.Proofs.Template.Traced

namespace TemplateSqueeze.Template

open Text

variable {raw w old new : Text} {us front back front' back' : List Lexeme} {u v : Lexeme}
  {pre mid post : Segment} {origin i p x : Nat}

def InRun (raw : Text) (x : Nat) : Prop :=
  ∃ front run back, lexemes raw = front ++ (run ++ back) ∧ IsRun run ∧
    extent front ≤ x ∧ x < extent front + extent run

/-- The unit `old` at byte `p` stands right before a run, and what follows the run asks for the
spelling `new`. -/
def RespelledBeforeRun (raw : Text) (p : Nat) (old new : Text) : Prop :=
  ∃ front u run back next, lexemes raw = front ++ u :: (run ++ back) ∧ extent front = p ∧
    u.text = old ∧ IsRun run ∧ leadsToSpace back = false ∧
    (back.flatMap Lexeme.text).head? = some next ∧ Respelling old next new

theorem size_pos_of_respelling? {next : Option Char} (h : respelling? old next = some new) :
    0 < old.size ∧ 0 < new.size := by
  obtain ⟨c, -, hc⟩ := respelling?_eq_some_iff.1 h
  cases hc with
  | dollar => decide
  | null => decide

theorem exists_split (h : x < extent us) : ∃ front u back, us = front ++ u :: back ∧
    extent front ≤ x ∧ x < extent front + u.text.size := by
  induction us generalizing x with
  | nil => cases h
  | cons v us ih =>
    rw [extent_cons] at h
    by_cases hv : x < v.text.size
    · refine ⟨[], v, us, rfl, Nat.zero_le x, ?_⟩
      rwa [extent_nil, Nat.zero_add]
    · obtain ⟨front, u, back, hsplit, hle, hlt⟩ := ih (x := x - v.text.size) (by omega)
      refine ⟨v :: front, u, back, congrArg (v :: ·) hsplit, ?_, ?_⟩
      · rw [extent_cons]
        omega
      · rw [extent_cons]
        omega

theorem split_unique (h : front ++ u :: back = front' ++ v :: back') (hle : extent front ≤ x)
    (hlt : x < extent front + u.text.size) (hle' : extent front' ≤ x)
    (hlt' : x < extent front' + v.text.size) : front = front' ∧ u = v ∧ back = back' := by
  induction front generalizing front' x with
  | nil =>
    cases front' with
    | nil => exact ⟨rfl, List.cons.inj h⟩
    | cons u' front' =>
      obtain ⟨rfl, -⟩ := List.cons.inj h
      rw [extent_cons] at hle'
      rw [extent_nil] at hlt
      omega
  | cons u' front ih =>
    cases front' with
    | nil =>
      obtain ⟨rfl, -⟩ := List.cons.inj h
      rw [extent_cons] at hle
      rw [extent_nil] at hlt'
      omega
    | cons v' front' =>
      rw [List.cons_append, List.cons_append, List.cons.injEq] at h
      obtain ⟨rfl, h⟩ := h
      rw [extent_cons] at hle hlt hle' hlt'
      obtain ⟨hfront, hrest⟩ :=
        ih h (x := x - u'.text.size) (by omega) (by omega) (by omega) (by omega)
      exact ⟨congrArg (u' :: ·) hfront, hrest⟩

theorem slice?_unit (h : lexemes raw = front ++ u :: back) :
    raw.slice? (extent front) (extent front + u.text.size) = some u.text := by
  refine slice?_eq_some.2 ⟨front.flatMap Lexeme.text, back.flatMap Lexeme.text, ?_, rfl, rfl⟩
  rw [← flatMap_text_lexemes raw, h, List.flatMap_append, List.flatMap_cons, List.append_assoc]

theorem exists_first_of_mem_lexemes {t : Text} (h : u ∈ lexemes t) :
    ∃ c r, u = Lexeme.first c r := by
  fun_induction lexemes t with
  | case1 => cases h
  | case2 c t l ih =>
    rcases List.mem_cons.1 h with hu | hu
    · exact ⟨c, t, hu⟩
    · exact ih hu

theorem kind_of_respelling {c : Char} (h : u ∈ lexemes raw) (hc : Respelling u.text c new) :
    u.kind = .other := by
  obtain ⟨d, r, rfl⟩ := exists_first_of_mem_lexemes h
  have hread := Lexeme.first_append d r
  generalize hunit : (Lexeme.first d r).text = unit at hc hread
  cases hc with
  | dollar =>
    obtain ⟨rfl, -⟩ := List.cons.inj hread
    rfl
  | null =>
    obtain ⟨rfl, hrest⟩ := List.cons.inj hread
    rw [← hrest]
    rfl

theorem bounds_written (h : x ∈ (written origin front u back).origins) :
    origin + extent front ≤ x ∧ x < origin + extent front + u.text.size := by
  have hfate := fate_written origin front u back
  generalize written origin front u back = s at h hfate
  cases hfate with
  | gone => cases h
  | copied =>
    rw [Segment.origins_copy] at h
    exact List.mem_range'_1.1 h
  | respelled _ hw =>
    rw [Segment.origins_spell] at h
    have hpos := (size_pos_of_respelling? hw).1
    have hx := List.eq_of_mem_replicate h
    omega

theorem bounds_writeUnits (h : x ∈ (writeUnits origin front us).origins) :
    origin + extent front ≤ x ∧ x < origin + extent front + extent us := by
  induction us generalizing front with
  | nil => cases h
  | cons u us ih =>
    rw [writeUnits, Segment.origins_append, List.mem_append] at h
    rw [extent_cons]
    rcases h with hx | hx
    · have := bounds_written hx
      omega
    · have := ih hx
      rw [extent_append, extent_cons, extent_nil] at this
      omega

theorem sorted_written (origin : Nat) (front : List Lexeme) (u : Lexeme) (back : List Lexeme) :
    (written origin front u back).origins.Pairwise (· ≤ ·) := by
  have hfate := fate_written origin front u back
  generalize written origin front u back = s at hfate
  cases hfate with
  | gone => exact .nil
  | copied =>
    rw [Segment.origins_copy]
    exact List.pairwise_le_range' _
  | respelled =>
    rw [Segment.origins_spell]
    exact List.pairwise_replicate.2 (.inr (Nat.le_refl _))

theorem sorted_writeUnits (origin : Nat) (front us : List Lexeme) :
    (writeUnits origin front us).origins.Pairwise (· ≤ ·) := by
  induction us generalizing front with
  | nil => exact .nil
  | cons u us ih =>
    rw [writeUnits, Segment.origins_append, List.pairwise_append]
    refine ⟨sorted_written origin front u us, ih (front ++ [u]), ?_⟩
    intro x hx y hy
    have hx := bounds_written hx
    have hy := bounds_writeUnits hy
    rw [extent_append, extent_cons, extent_nil] at hy
    omega

theorem writeUnits_split (origin : Nat) (front us : List Lexeme) (u : Lexeme)
    (back : List Lexeme) : ∃ pre post, writeUnits origin front (us ++ u :: back) =
      pre ++ written origin (front ++ us) u back ++ post ∧
    (∀ y ∈ pre.origins, y < origin + extent (front ++ us)) ∧
    ∀ y ∈ post.origins, origin + extent (front ++ us) + u.text.size ≤ y := by
  induction us generalizing front with
  | nil =>
    rw [List.append_nil]
    refine ⟨[], writeUnits origin (front ++ [u]) back, rfl, nofun, ?_⟩
    intro y hy
    have := bounds_writeUnits hy
    rw [extent_append, extent_cons, extent_nil] at this
    omega
  | cons v us ih =>
    obtain ⟨pre, post, hsplit, hpre, hpost⟩ := ih (front ++ [v])
    have hfront : front ++ [v] ++ us = front ++ v :: us := List.append_assoc front [v] us
    rw [hfront] at hsplit hpre hpost
    refine ⟨written origin front v (us ++ u :: back) ++ pre, post, ?_, ?_, hpost⟩
    · rw [List.cons_append, writeUnits, hsplit]
      simp only [List.append_assoc]
    · intro y hy
      rw [Segment.origins_append, List.mem_append] at hy
      rcases hy with hy | hy
      · have := (bounds_written hy).2
        rw [extent_append, extent_cons]
        omega
      · exact hpre y hy

/-- What is written for the unit that holds byte `x` stands behind all smaller origins and before
all greater ones. -/
theorem exists_part (origin : Nat) (hx : x < raw.size) : ∃ front u back pre mid post,
    lexemes raw = front ++ u :: back ∧ extent front ≤ x ∧ x < extent front + u.text.size ∧
    squeeze raw origin = pre ++ mid ++ post ∧ Fate origin front u back mid ∧
    (∀ y ∈ pre.origins, y < origin + x) ∧ ∀ y ∈ post.origins, origin + x < y := by
  rw [← extent_lexemes] at hx
  obtain ⟨front, u, back, hunits, hle, hlt⟩ := exists_split hx
  obtain ⟨pre, post, hsplit, hpre, hpost⟩ := writeUnits_split origin [] front u back
  rw [List.nil_append] at hsplit hpre hpost
  refine ⟨front, u, back, pre, _, post, hunits, hle, hlt, ?_, fate_written origin front u back,
    ?_, ?_⟩
  · rw [squeeze_eq_writeUnits, hunits, hsplit]
  · intro y hy
    have := hpre y hy
    omega
  · intro y hy
    have := hpost y hy
    omega

theorem bounds_squeeze (h : x ∈ (squeeze raw origin).origins) :
    origin ≤ x ∧ x < origin + raw.size := by
  rw [squeeze_eq_writeUnits] at h
  have := bounds_writeUnits h
  rwa [extent_nil, extent_lexemes, Nat.add_zero] at this

theorem exists_part_of_mem (h : x ∈ (squeeze raw origin).origins) :
    ∃ front u back pre mid post, lexemes raw = front ++ u :: back ∧
      squeeze raw origin = pre ++ mid ++ post ∧ Fate origin front u back mid ∧
      (∀ y ∈ pre.origins, y < x) ∧ ∀ y ∈ post.origins, x < y := by
  obtain ⟨hlo, hhi⟩ := bounds_squeeze h
  have hx : x - origin < raw.size := by omega
  obtain ⟨front, u, back, pre, mid, post, hunits, -, -, hsplit, hfate, hpre, hpost⟩ :=
    exists_part origin hx
  rw [Nat.add_sub_cancel' hlo] at hpre hpost
  exact ⟨front, u, back, pre, mid, post, hunits, hsplit, hfate, hpre, hpost⟩

theorem mem_origins_part (hpre : ∀ y ∈ pre.origins, y < x) (hpost : ∀ y ∈ post.origins, x < y) :
    x ∈ (pre ++ mid ++ post).origins ↔ x ∈ mid.origins := by
  rw [Segment.origins_append, Segment.origins_append, List.mem_append, List.mem_append]
  constructor
  · intro h
    rcases h with (h | h) | h
    · exact absurd (hpre x h) (Nat.lt_irrefl x)
    · exact h
    · exact absurd (hpost x h) (Nat.lt_irrefl x)
  · intro h
    exact .inl (.inr h)

theorem getElem?_origins_part (hpre : ∀ y ∈ pre.origins, y < x)
    (hpost : ∀ y ∈ post.origins, x < y) (h : (pre ++ mid ++ post).origins[i]? = some x) :
    ∃ k, i = pre.text.size + k ∧ k < mid.text.size ∧ mid.origins[k]? = some x := by
  rw [Segment.origins_append, Segment.origins_append, List.getElem?_append,
    List.getElem?_append] at h
  rw [← Segment.length_origins, ← Segment.length_origins]
  split at h
  · split at h
    · have := hpre x (List.mem_of_getElem? h)
      omega
    · next hmid hle =>
      rw [List.length_append] at hmid
      exact ⟨i - pre.origins.length, by omega, by omega, h⟩
  · have := hpost x (List.mem_of_getElem? h)
    omega

theorem respelledBeforeRun_of_respelling? (h : lexemes raw = front ++ u :: back)
    (hw : respelling? u.text (behindRun? back) = some w) :
    RespelledBeforeRun raw (extent front) u.text w := by
  obtain ⟨c, hc, hrespelling⟩ := respelling?_eq_some_iff.1 hw
  obtain ⟨run, back', rfl, hrun, hback, hnext⟩ := behindRun?_eq_some hc
  exact ⟨front, u, run, back', c, h, rfl, rfl, hrun, hback, hnext, hrespelling⟩

theorem RespelledBeforeRun.exists_respelling? (h : RespelledBeforeRun raw p old new) :
    ∃ front u back, lexemes raw = front ++ u :: back ∧ extent front = p ∧ u.text = old ∧
      respelling? old (behindRun? back) = some new := by
  obtain ⟨front, u, run, back, next, hunits, hp, hold, hrun, hback, hnext, hc⟩ := h
  refine ⟨front, u, run ++ back, hunits, hp, hold, ?_⟩
  rw [hrun.behindRun?_append hback, hnext]
  exact respelling?_eq_some_iff.2 ⟨next, rfl, hc⟩

theorem RespelledBeforeRun.exists_spells (h : RespelledBeforeRun raw p old new) (origin : Nat) :
    ∃ j, (squeeze raw origin).Spells j (origin + p) new := by
  obtain ⟨front, u, back, hunits, rfl, rfl, hw⟩ := h.exists_respelling?
  obtain ⟨c, -, hc⟩ := respelling?_eq_some_iff.1 hw
  have hk := kind_of_respelling (by rw [hunits]; simp) hc
  have hwritten : written origin front u back = .spell (origin + extent front) new := by
    rw [written, if_neg (not_liesInRun_other hk), Held.writeBefore]
    simp only [hw]
  obtain ⟨pre, post, hsplit, -, -⟩ := writeUnits_split origin [] front u back
  rw [← hunits, List.nil_append, hwritten] at hsplit
  rw [squeeze_eq_writeUnits, hsplit]
  exact ⟨_, Segment.spells_append pre post (origin + extent front) new⟩

theorem inRun_iff (h : lexemes raw = front ++ u :: back) (hle : extent front ≤ x)
    (hlt : x < extent front + u.text.size) : InRun raw x ↔ LiesInRun front u back := by
  constructor
  · intro ⟨front', run, back', hunits, hrun, hle', hlt'⟩
    have hinside : x - extent front' < extent run := by omega
    obtain ⟨a, v, b, rfl, ha, hv⟩ := exists_split hinside
    have hunits' : lexemes raw = (front' ++ a) ++ v :: (b ++ back') := by
      rw [hunits]
      simp only [List.append_assoc, List.cons_append]
    obtain ⟨rfl, rfl, rfl⟩ := split_unique (h.symm.trans hunits') hle hlt
      (by rw [extent_append]; omega) (by rw [extent_append]; omega)
    exact hrun.liesInRun front' back'
  · intro hin
    obtain ⟨front', a, b, back', rfl, rfl, hrun⟩ := liesInRun_iff.1 hin
    rw [extent_append] at hle hlt
    refine ⟨front', a ++ u :: b, back', ?_, hrun, by omega, ?_⟩
    · rw [h]
      simp only [List.append_assoc, List.cons_append]
    · rw [extent_append, extent_cons]
      omega

theorem copied_or_respelled (h : (squeeze raw origin).origins[i]? = some x) :
    ((squeeze raw origin).text.bytes[i]? = raw.bytes[x - origin]? ∧
      ∀ k, (squeeze raw origin).origins[k]? = some x → k = i) ∨
    ∃ j p old new, RespelledBeforeRun raw p old new ∧
      (squeeze raw origin).Spells j (origin + p) new ∧
      ∀ k, (squeeze raw origin).origins[k]? = some x → j ≤ k ∧ k < j + new.size := by
  obtain ⟨front, u, back, pre, mid, post, hunits, hsplit, hfate, hpre, hpost⟩ :=
    exists_part_of_mem (List.mem_of_getElem? h)
  rw [hsplit] at h ⊢
  obtain ⟨m, rfl, hm, hx⟩ := getElem?_origins_part hpre hpost h
  cases hfate with
  | gone => cases hm
  | copied =>
    rw [Segment.text_copy] at hm
    rw [Segment.origins_copy, List.getElem?_range' hm, Option.some_inj] at hx
    apply Or.inl
    constructor
    · have hslice : (pre ++ .copy (origin + extent front) u.text ++ post).text.slice?
          pre.text.size (pre.text.size + u.text.size) = some u.text := by
        refine slice?_eq_some.2 ⟨pre.text, post.text, ?_, rfl, rfl⟩
        rw [Segment.text_append, Segment.text_append, Segment.text_copy]
      have hbyte : x - origin = extent front + m := by omega
      rw [hbyte, ← getElem?_bytes_slice? hslice hm, getElem?_bytes_slice? (slice?_unit hunits) hm]
    · intro k hk
      obtain ⟨n, rfl, hn, hxn⟩ := getElem?_origins_part hpre hpost hk
      rw [Segment.text_copy] at hn
      rw [Segment.origins_copy, List.getElem?_range' hn, Option.some_inj] at hxn
      omega
  | @respelled w _ hw =>
    refine .inr ⟨_, _, _, w, respelledBeforeRun_of_respelling? hunits hw,
      Segment.spells_append _ _ _ _, ?_⟩
    intro k hk
    obtain ⟨n, rfl, hn, -⟩ := getElem?_origins_part hpre hpost hk
    rw [Segment.text_spell] at hn
    exact ⟨Nat.le_add_right _ _, Nat.add_lt_add_left hn _⟩

theorem mem_origins_spell (hw : 0 < w.size) : x ∈ (Segment.spell p w).origins ↔ x = p := by
  rw [Segment.origins_spell, List.mem_replicate]
  constructor
  · exact fun h ↦ h.2
  · exact fun h ↦ ⟨Nat.ne_of_gt hw, h⟩

theorem not_mem_origins_squeeze_iff (origin : Nat) (hx : x < raw.size) :
    origin + x ∉ (squeeze raw origin).origins ↔
      InRun raw x ∨ ∃ p new, RespelledBeforeRun raw p ['\\', '0'] new ∧ x = p + 1 := by
  obtain ⟨front, u, back, pre, mid, post, hunits, hle, hlt, hsplit, hfate, hpre, hpost⟩ :=
    exists_part origin hx
  rw [hsplit, mem_origins_part hpre hpost, inRun_iff hunits hle hlt]
  -- A null escape that holds the byte is the unit that does.
  have hnull {p : Nat} (new : Text) (h : RespelledBeforeRun raw p ['\\', '0'] new)
      (hp : x = p + 1) : extent front = p ∧ respelling? u.text (behindRun? back) = some new := by
    obtain ⟨front', u', back', hunits', hp', hold, hw⟩ := h.exists_respelling?
    have hsize : u'.text.size = 2 := by rw [hold]; rfl
    obtain ⟨rfl, rfl, rfl⟩ := split_unique (hunits.symm.trans hunits') hle hlt (by omega) (by omega)
    exact ⟨hp', hold ▸ hw⟩
  cases hfate with
  | gone hin => exact iff_of_true nofun (.inl hin)
  | copied hin hnone =>
    apply iff_of_false
    · rw [Segment.origins_copy, List.mem_range'_1]
      omega
    · intro hmissing
      rcases hmissing with hin' | ⟨p, new, h, hp⟩
      · exact hin hin'
      · rw [(hnull new h hp).2] at hnone
        cases hnone
  | @respelled w hin hw =>
    obtain ⟨hold, hnew⟩ := size_pos_of_respelling? hw
    rw [mem_origins_spell hnew, Nat.add_left_cancel_iff]
    constructor
    · intro hne
      have hsize : 2 ≤ u.text.size := by omega
      refine .inr ⟨extent front, w, ?_⟩
      have hrespelled := respelledBeforeRun_of_respelling? hunits hw
      obtain ⟨c, -, hc⟩ := respelling?_eq_some_iff.1 hw
      generalize u.text = old at hlt hsize hc hrespelled
      cases hc with
      | dollar => exact absurd hsize (by decide)
      | null =>
        have hwidth : size ['\\', '0'] = 2 := rfl
        exact ⟨hrespelled, by omega⟩
    · intro hmissing
      rcases hmissing with hin' | ⟨p, new, h, hp⟩
      · exact absurd hin' hin
      · have := (hnull new h hp).1
        omega

/-- Squeezed text has one origin a byte, inside the raw text and never decreasing. A byte is a copy
of its origin, but for units that are spelled another way before a run, as all that stand there are;
only within one do origins repeat. The bytes with no origin are those of the runs and the digits of
null escapes that are spelled another way. -/
theorem squeeze_origins (raw : Text) (origin : Nat) :
    let s := squeeze raw origin
    s.origins.length = s.text.bytes.length ∧
    (∀ x ∈ s.origins, origin ≤ x ∧ x < origin + raw.bytes.length) ∧
    s.origins.Pairwise (· ≤ ·) ∧
    (∀ i x, s.origins[i]? = some x → s.text.bytes[i]? = raw.bytes[x - origin]? ∨
      ∃ j p old new, RespelledBeforeRun raw p old new ∧ s.Spells j (origin + p) new ∧
        j ≤ i ∧ i < j + new.size) ∧
    (∀ p old new, RespelledBeforeRun raw p old new → ∃ j, s.Spells j (origin + p) new) ∧
    (∀ i k x, i < k → s.origins[i]? = some x → s.origins[k]? = some x →
      ∃ j p old new, RespelledBeforeRun raw p old new ∧ s.Spells j (origin + p) new ∧
        j ≤ i ∧ k < j + new.size) ∧
    ∀ x < raw.bytes.length, origin + x ∉ s.origins ↔
      InRun raw x ∨ ∃ p new, RespelledBeforeRun raw p ['\\', '0'] new ∧ x = p + 1 := by
  rw [length_bytes raw]
  intro s
  refine ⟨?_, ?_, ?_, ?_, ?_, ?_, ?_⟩
  · rw [Segment.length_origins, length_bytes]
  · intro x hx
    exact bounds_squeeze hx
  · have hsorted := sorted_writeUnits origin [] (lexemes raw)
    rwa [← squeeze_eq_writeUnits] at hsorted
  · intro i x hx
    rcases copied_or_respelled hx with ⟨hbyte, -⟩ | ⟨j, p, old, new, h, hspells, hrange⟩
    · exact .inl hbyte
    · exact .inr ⟨j, p, old, new, h, hspells, hrange i hx⟩
  · intro p old new h
    exact h.exists_spells origin
  · intro i k x hlt hi hk
    rcases copied_or_respelled hi with ⟨-, honly⟩ | ⟨j, p, old, new, h, hspells, hrange⟩
    · exact absurd (honly k hk) (Nat.ne_of_gt hlt)
    · exact ⟨j, p, old, new, h, hspells, (hrange i hi).1, (hrange k hk).2⟩
  · intro x hx
    exact not_mem_origins_squeeze_iff origin hx

def gappedText : Text := "$ \\\n \x7b\\0  7".toList

theorem squeeze_origins_gappedText :
    (squeeze gappedText 10).origins = [10, 10, 15, 16, 16, 16, 16, 20] ∧
    InRun gappedText 3 ∧ RespelledBeforeRun gappedText 0 ['$'] ['\\', '$'] ∧
    RespelledBeforeRun gappedText 6 ['\\', '0'] ['\\', 'x', '0', '0'] ∧
    (∃ j, (squeeze gappedText 10).Spells j 10 ['\\', '$']) ∧
    (∃ j, (squeeze gappedText 10).Spells j 16 ['\\', 'x', '0', '0']) ∧
    13 ∉ (squeeze gappedText 10).origins ∧ 17 ∉ (squeeze gappedText 10).origins := by
  have horigins : (squeeze gappedText 10).origins = [10, 10, 15, 16, 16, 16, 16, 20] := by cbv
  have hunits : lexemes gappedText =
      [⟨.other, ['$']⟩, ⟨.space, [' ']⟩, ⟨.continuation, ['\\', '\n']⟩, ⟨.space, [' ']⟩,
        ⟨.other, ['\x7b']⟩, ⟨.other, ['\\', '0']⟩, ⟨.space, [' ']⟩, ⟨.space, [' ']⟩,
        ⟨.other, ['7']⟩] := by cbv
  let continued : List Lexeme := ⟨.space, [' ']⟩ :: ([⟨.continuation, ['\\', '\n']⟩] ++
    [⟨.space, [' ']⟩])
  let spaces : List Lexeme := ⟨.space, [' ']⟩ :: ([] ++ [⟨.space, [' ']⟩])
  have hcontinued : IsRun continued := .mk rfl (by decide) rfl
  have hspaces : IsRun spaces := .mk rfl (by decide) rfl
  have hin : InRun gappedText 3 :=
    ⟨[⟨.other, ['$']⟩], continued, [⟨.other, ['\x7b']⟩, ⟨.other, ['\\', '0']⟩, ⟨.space, [' ']⟩,
      ⟨.space, [' ']⟩, ⟨.other, ['7']⟩], hunits, hcontinued, by decide, by decide⟩
  have hdollar : RespelledBeforeRun gappedText 0 ['$'] ['\\', '$'] :=
    ⟨[], ⟨.other, ['$']⟩, continued, [⟨.other, ['\x7b']⟩, ⟨.other, ['\\', '0']⟩,
      ⟨.space, [' ']⟩, ⟨.space, [' ']⟩, ⟨.other, ['7']⟩], '\x7b', hunits, rfl, rfl, hcontinued,
      rfl, rfl, .dollar⟩
  have hnull : RespelledBeforeRun gappedText 6 ['\\', '0'] ['\\', 'x', '0', '0'] :=
    ⟨[⟨.other, ['$']⟩, ⟨.space, [' ']⟩, ⟨.continuation, ['\\', '\n']⟩, ⟨.space, [' ']⟩,
      ⟨.other, ['\x7b']⟩], ⟨.other, ['\\', '0']⟩, spaces, [⟨.other, ['7']⟩], '7', hunits, rfl,
      rfl, hspaces, rfl, rfl, .null (by decide)⟩
  obtain ⟨-, -, -, -, hspells, -, hmissing⟩ := squeeze_origins gappedText 10
  refine ⟨horigins, hin, hdollar, hnull, hspells 0 _ _ hdollar, hspells 6 _ _ hnull, ?_, ?_⟩
  · exact (hmissing 3 (by decide)).2 (.inl hin)
  · exact (hmissing 7 (by decide)).2 (.inr ⟨6, _, hnull, rfl⟩)

end TemplateSqueeze.Template
