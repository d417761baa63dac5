import Mathlib
import TemplateSqueeze.Proofs.Edit.Accepted
import TemplateSqueeze.Proofs.SourceMap.Carried

namespace TemplateSqueeze.SourceMap

open Text

variable {tokens : List Token} {t u : Token} {p : Position} {c : Change}

theorem filter_mergeSort {q : Token → Bool} (hq : ∀ t u, q t → q u → t.upTo u)
    (tokens : List Token) : (tokens.mergeSort Token.upTo).filter q = tokens.filter q := by
  have hpairwise : (tokens.filter q).Pairwise fun t u ↦ t.upTo u := by
    apply List.pairwise_of_forall_mem_list
    intro t ht u hu
    exact hq t u (List.of_mem_filter ht) (List.of_mem_filter hu)
  -- In any order they are sorted, so they stay as they are, and no others pass.
  have hsub := List.sublist_mergeSort Token.upTo_trans Token.upTo_total hpairwise
    List.filter_sublist
  have hfilter := hsub.filter q
  rw [List.filter_filter] at hfilter
  simp only [Bool.and_self] at hfilter
  have hlength := ((List.mergeSort_perm tokens Token.upTo).filter q).length_eq
  exact (hfilter.eq_of_length hlength.symm).symm

theorem find?_of_mem_dropRepeated (hs : Sorted tokens) (h : t ∈ dropRepeated tokens) :
    tokens.find? (·.position = t.position) = some t := by
  fun_induction dropRepeated tokens with
  | case1 => cases h
  | case2 u =>
    rw [List.mem_singleton] at h
    simp [h]
  | case3 v u ts heq ih =>
    have hrest := ih (hs.sublist (List.cons_sublist_cons.2 (List.sublist_cons_self u ts))) h
    rw [List.find?_cons] at hrest ⊢
    split at hrest
    · exact hrest
    · next hne =>
      rw [heq] at hne
      rw [List.find?_cons, hne]
      exact hrest
  | case4 v u ts hne ih =>
    rcases List.mem_cons.1 h with rfl | h
    · simp
    · have hprecedes := hs.precedes_of_ne hne t (mem_of_mem_dropRepeated h)
      have hv : v.position ≠ t.position := by
        intro he
        rw [he] at hprecedes
        exact Position.precedes_irrefl _ hprecedes
      rw [List.find?_cons_of_neg (by simpa using hv)]
      exact ih (List.pairwise_cons.1 hs).2 h

def standingAt (tokens : List Token) (p : Position) : List Token :=
  tokens.filter (·.position = p)

theorem filter_standingAt_mergeSort (tokens : List Token) (p : Position) (b : Bool) :
    (standingAt (tokens.mergeSort Token.upTo) p).filter (·.isMapped = b) =
      (standingAt tokens p).filter (·.isMapped = b) := by
  rw [standingAt, standingAt, List.filter_filter, List.filter_filter]
  apply filter_mergeSort
  intro t u ht hu
  simp only [Bool.and_eq_true, decide_eq_true_eq] at ht hu
  rw [Token.upTo_iff, ht.1, hu.1, ht.2, hu.2]
  exact .inr ⟨rfl, Classical.em _⟩

theorem eq_mapped_append_unmapped (hs : tokens.Pairwise fun t u ↦ t.upTo u)
    (hp : ∀ t ∈ tokens, t.position = p) : tokens =
      tokens.filter (·.isMapped = true) ++ tokens.filter (·.isMapped = false) := by
  induction tokens with
  | nil => rfl
  | cons t ts ih =>
    rw [List.forall_mem_cons] at hp
    obtain ⟨ht, hts⟩ := List.pairwise_cons.1 hs
    cases hmapped : t.isMapped with
    | true => simpa [hmapped] using ih hts hp.2
    | false =>
      have hnone : ∀ u ∈ ts, u.isMapped = false := by
        intro u hu
        have hle := ht u hu
        rw [Token.upTo_iff, hp.1, hp.2 u hu, hmapped] at hle
        simpa [Position.precedes_irrefl] using hle
      have hmappedNone : ts.filter (·.isMapped = true) = [] := by
        simpa using hnone
      have hunmappedAll : ts.filter (·.isMapped = false) = ts := by
        simpa using hnone
      rw [List.filter_cons_of_neg (by simp [hmapped]), List.filter_cons_of_pos (by simp [hmapped]),
        hmappedNone, hunmappedAll, List.nil_append]

theorem head?_mapped_append_unmapped (tokens : List Token) :
    (tokens.filter (·.isMapped = true) ++ tokens.filter (·.isMapped = false)).head? =
      (tokens.find? (·.isMapped)).or tokens.head? := by
  rw [List.head?_append, List.head?_filter, List.head?_filter]
  simp only [Bool.decide_eq_true]
  cases tokens with
  | nil => rfl
  | cons t ts =>
    cases hmapped : t.isMapped with
    | true => simp [hmapped]
    | false => simp [hmapped]

theorem choice_of_mem_settled (h : t ∈ settled tokens) :
    some t = ((standingAt tokens t.position).find? (·.isMapped)).or
      (standingAt tokens t.position).head? := by
  have hsorted : (standingAt (tokens.mergeSort Token.upTo) t.position).Pairwise
      fun t u ↦ t.upTo u :=
    (List.pairwise_mergeSort Token.upTo_trans Token.upTo_total tokens).sublist List.filter_sublist
  have hsplit := eq_mapped_append_unmapped hsorted
    fun u hu ↦ of_decide_eq_true (List.mem_filter.1 hu).2
  rw [filter_standingAt_mergeSort, filter_standingAt_mergeSort] at hsplit
  rw [← head?_mapped_append_unmapped, ← hsplit, standingAt, List.head?_filter]
  exact (find?_of_mem_dropRepeated (sorted_mergeSort tokens) h).symm

namespace Change

/-- Where the byte at a token went: to the first byte of the output that came from it. -/
def arrival? (c : Change) (u : Token) : Option Position :=
  (c.input.offsetOf? u.position).bind fun x ↦
    ((destinations c.inputSize c.origins)[x]?.join).map c.output.positionOf

def placeOf (c : Change) (tokens : List Token) (origin : Nat) : Place :=
  let p := c.input.positionOf origin
  ((lookup? tokens p).map (·.placeAt p)).getD .nowhere

/-- All that a position of the output is offered: the places of the tokens that went there, and
then those of the origins of the joints there. -/
def offers (c : Change) (tokens : List Token) (p : Position) : List Place :=
  (tokens.filter (c.arrival? · = some p)).map Token.place ++
    (c.jointOrigins.filter (c.output.positionOf ·.1 = p)).map (c.placeOf tokens ·.2)

theorem arrival?_eq_some : c.arrival? u = some p ↔
    ∃ x k, c.input.offsetOf? u.position = some x ∧ x < c.inputSize ∧ c.origins[k]? = some x ∧
      (∀ j < k, c.origins[j]? ≠ some x) ∧ c.output.positionOf k = p := by
  simp only [arrival?, Option.bind_eq_some_iff, Option.map_eq_some_iff, Option.join_eq_some_iff,
    getElem?_destinations_eq_some, and_assoc, exists_and_left]

theorem moved?_eq (c : Change) (u : Token) : c.moved? (destinations c.inputSize c.origins) u =
    (c.arrival? u).map fun p ↦ ⟨p, u.place, false⟩ := by
  rw [moved?, arrival?]
  cases c.input.offsetOf? u.position with
  | none => rfl
  | some x =>
    simp only [Option.bind_eq_bind, Option.bind_some]
    rcases (destinations c.inputSize c.origins)[x]? with _ | _ | k
    · rfl
    · rfl
    · rfl

theorem lookedUp_eq (c : Change) (tokens : List Token) (k o : Nat) :
    c.lookedUp tokens k o = ⟨c.output.positionOf k, c.placeOf tokens o, false⟩ := by
  rw [lookedUp, placeOf]
  cases lookup? tokens (c.input.positionOf o) with
  | none => rfl
  | some t => rfl

theorem map_place_standingAt (c : Change) (tokens : List Token) (p : Position) :
    (standingAt (c.candidates tokens) p).map Token.place = c.offers tokens p := by
  rw [candidates, standingAt, List.filter_append, List.map_append, offers]
  congr 1
  · induction tokens with
    | nil => rfl
    | cons u tokens ih =>
      rw [List.filterMap_cons, moved?_eq]
      cases h : c.arrival? u with
      | none => simp [h, ih]
      | some q =>
        by_cases hq : q = p
        · simp [h, hq, ih]
        · simp [h, hq, ih]
  · rw [List.filter_map, List.map_map]
    simp only [Function.comp_def, lookedUp_eq]

theorem exists_position_settled_iff (c : Change) (tokens : List Token) (p : Position) :
    (∃ t ∈ settled (c.candidates tokens), t.position = p) ↔
      (∃ u ∈ tokens, c.arrival? u = some p) ∨
        ∃ k ∈ joints c.output.startsLine c.origins, c.output.positionOf k = p := by
  have hsettled : (∃ t ∈ settled (c.candidates tokens), t.position = p) ↔
      ∃ t ∈ c.candidates tokens, t.position = p := by
    constructor
    · rintro ⟨t, ht, hp⟩
      exact ⟨t, mem_of_mem_settled ht, hp⟩
    · rintro ⟨t, ht, rfl⟩
      exact exists_mem_settled ht
  rw [hsettled]
  constructor
  · rintro ⟨t, ht, rfl⟩
    rcases mem_candidates.1 ht with ⟨u, hu, hmoved⟩ | ⟨k, o, hk, rfl⟩
    · rw [moved?_eq, Option.map_eq_some_iff] at hmoved
      obtain ⟨q, hq, rfl⟩ := hmoved
      exact .inl ⟨u, hu, hq⟩
    · exact .inr ⟨k, (mem_jointOrigins.1 hk).1, rfl⟩
  · rintro (⟨u, hu, hp⟩ | ⟨k, hk, rfl⟩)
    · refine ⟨⟨p, u.place, false⟩, mem_candidates.2 (.inl ⟨u, hu, ?_⟩), rfl⟩
      rw [moved?_eq, hp, Option.map_some]
    · obtain ⟨hlt, -⟩ := mem_joints.1 hk
      have hjoint : (k, c.origins[k]) ∈ c.jointOrigins :=
        mem_jointOrigins.2 ⟨hk, List.getElem?_eq_getElem hlt⟩
      exact ⟨_, mem_candidates.2 (.inr ⟨k, _, hjoint, rfl⟩), rfl⟩

theorem place_of_mem_settled (ht : t ∈ settled (c.candidates tokens)) :
    some t.place = ((c.offers tokens t.position).find? (·.line != absent)).or
      (c.offers tokens t.position).head? := by
  have hchoice := congrArg (Option.map Token.place) (choice_of_mem_settled ht)
  rw [← map_place_standingAt, List.find?_map, List.head?_map, ← Option.map_or]
  exact hchoice

end Change

/-- Carried over accepted edits, the tokens of any map stand in order, at the positions of the
joints and of the old tokens whose byte is still there. Each has the first place offered to its
position that is mapped, or the first of all if none is. -/
theorem carryTokens_chosen {input : Text} {edits : List Edit}
    (hvalid : Edit.validate input.size edits = .ok ())
    (hcuts : ∀ e ∈ edits, input.IsBoundary e.start ∧ input.IsBoundary e.stop) :
    ∃ output c, Edit.splice input edits = some output ∧ c = Change.ofEdits input output edits ∧
      c.origins = Edit.spliceOrigins input.size edits ∧ c.origins.length = output.size ∧
      ∀ tokens,
        (carryTokens input output edits tokens).Pairwise
          (fun t u ↦ t.position.precedes u.position) ∧
        (∀ p, (∃ t ∈ carryTokens input output edits tokens, t.position = p) ↔
          (∃ u ∈ tokens, ∃ x k, c.input.offsetOf? u.position = some x ∧ x < input.size ∧
            c.origins[k]? = some x ∧ (∀ j < k, c.origins[j]? ≠ some x) ∧
              c.output.positionOf k = p) ∨
          ∃ k ∈ joints c.output.startsLine c.origins, c.output.positionOf k = p) ∧
        ∀ t ∈ carryTokens input output edits tokens, t.ranged = false ∧
          some t.place = ((c.offers tokens t.position).find? (·.line != absent)).or
            (c.offers tokens t.position).head? := by
  obtain ⟨output, hsplice, hlength⟩ :=
    (Edit.validate_eq_ok_iff.1 hvalid).exists_splice ⟨[], input, rfl, rfl⟩ hcuts
  have horigins : (Change.ofEdits input output edits).origins =
      Edit.spliceOrigins input.size edits := List.take_of_length_le (Nat.le_of_eq hlength)
  refine ⟨output, _, hsplice, rfl, horigins, by rw [horigins]; exact hlength, fun tokens ↦ ?_⟩
  refine ⟨pairwise_settled _, fun p ↦ ?_, fun t ht ↦ ?_⟩
  · have hpositions := Change.exists_position_settled_iff (.ofEdits input output edits) tokens p
    simp only [Change.arrival?_eq_some] at hpositions
    exact hpositions
  · exact ⟨ranged_of_mem_candidates (mem_of_mem_settled ht), Change.place_of_mem_settled ht⟩

def doubledTokens : List Token :=
  [⟨⟨0, 0⟩, .nowhere, false⟩, ⟨⟨0, 0⟩, ⟨3, 4, some "m".toList, none⟩, false⟩]

theorem carryTokens_chosen_doubledTokens :
    Edit.validate (size "a  b".toList) [⟨1, 3, " ".toList, [1]⟩] = .ok () ∧
    Edit.splice "a  b".toList [⟨1, 3, " ".toList, [1]⟩] = some "a b".toList ∧
    ∃ t ∈ carryTokens "a  b".toList "a b".toList [⟨1, 3, " ".toList, [1]⟩] doubledTokens,
      t.position = ⟨0, 0⟩ ∧ t.place = ⟨3, 4, some "m".toList, none⟩ := by
  have hvalid : Edit.validate (size "a  b".toList) [⟨1, 3, " ".toList, [1]⟩] = .ok () := by decide
  have hsplice : Edit.splice "a  b".toList [⟨1, 3, " ".toList, [1]⟩] = some "a b".toList := by
    decide
  have hcuts : ∀ e ∈ [(⟨1, 3, " ".toList, [1]⟩ : Edit)],
      IsBoundary "a  b".toList e.start ∧ IsBoundary "a  b".toList e.stop := by
    rw [List.forall_mem_singleton]
    exact ⟨⟨"a".toList, "  b".toList, by decide, by decide⟩,
      ⟨"a  ".toList, "b".toList, by decide, by decide⟩⟩
  obtain ⟨output, c, hsplice', rfl, -, -, hall⟩ := carryTokens_chosen hvalid hcuts
  obtain rfl := Option.some.inj (hsplice.symm.trans hsplice')
  obtain ⟨-, hpositions, hplaces⟩ := hall doubledTokens
  obtain ⟨t, ht, hp⟩ := (hpositions ⟨0, 0⟩).2 (.inr ⟨0, mem_joints.2 ⟨by decide, .inl rfl⟩, by cbv⟩)
  refine ⟨hvalid, hsplice, t, ht, hp, ?_⟩
  have hoffers : (Change.ofEdits "a  b".toList "a b".toList [⟨1, 3, " ".toList, [1]⟩]).offers
      doubledTokens ⟨0, 0⟩ = [.nowhere, ⟨3, 4, some "m".toList, none⟩, .nowhere] := by cbv
  have hplace := (hplaces t ht).2
  rw [hp, hoffers] at hplace
  exact Option.some.inj hplace

end TemplateSqueeze.SourceMap
