import TemplateSqueeze.Proofs.Template.Scan
import TemplateSqueeze.Proofs.Tree.Walk
import TemplateSqueeze.Template.Marker

namespace TemplateSqueeze.Template

open Text Segment

variable {marker source : Text} {n t : Node} {l : Literal} {s : Segment} {closeAt : Nat}
  {R : Nat → Nat → Segment → Prop}

theorem Segment.Composing.segmentOfSpans (hR : Composing source R) {index count : Nat}
    {ns : List Node} {spans : List Span} (hw : ∀ n ∈ ns, n.Ranged source)
    (h : spansOf source closeAt index count ns = some spans) :
    ∃ s, Literal.segmentOfSpans source spans = some s ∧
      R ((ns.head?.map Node.start).getD closeAt) closeAt s := by
  induction ns generalizing index spans with
  | nil =>
    rw [spansOf, Option.some.injEq] at h
    subst h
    exact ⟨[], rfl, hR.nil closeAt⟩
  | cons n ns ih =>
    simp only [spansOf, Option.bind_eq_bind, Option.bind_eq_some_iff, Option.pure_def,
      Option.some.injEq] at h
    obtain ⟨raw, hraw, rest, hrest, rfl⟩ := h
    obtain ⟨sub, hsub⟩ := Option.isSome_iff_exists.1 (hw n List.mem_cons_self).slice?_isSome
    obtain ⟨s, hs, hf⟩ := ih (fun m hm ↦ hw m (List.mem_cons_of_mem n hm)) hrest
    refine ⟨.copy n.start sub ++ Template.squeeze raw n.stop ++ s, ?_, ?_⟩
    · rw [Literal.segmentOfSpans, hsub, hs]
      rfl
    · exact hR.append (hR.append (hR.copy hsub) (hR.squeeze hraw)) hf

theorem slice?_mark {o : Nat} (h : source.charAt? o = some mark) :
    source.slice? o (o + 1) = some [mark] := by
  obtain ⟨a, r, rfl, rfl⟩ := charAt?_eq_some.1 h
  exact slice?_eq_some.2 ⟨a, r, by simp, rfl, rfl⟩

namespace Literal

theorem ofNode?_eq_some (h : ofNode? source t = some l) :
    l.openAt = t.start ∧ l.closeAt + 1 = t.stop ∧ t.start + 1 < t.stop ∧
      source.charAt? l.openAt = some mark ∧ source.charAt? l.closeAt = some mark ∧
      ∃ raw substitutions, substitutions = t.children.filter (·.kind = .substitution) ∧
        source.slice? (l.openAt + 1) ((substitutions.head?.map Node.start).getD l.closeAt) =
          some raw ∧
        l.head = squeeze raw (l.openAt + 1) ∧
        spansOf source l.closeAt 0 substitutions.length substitutions = some l.spans := by
  simp only [ofNode?, Option.ite_none_right_eq_some, Option.bind_eq_bind, Option.bind_eq_some_iff,
    Option.pure_def, Option.some.injEq] at h
  obtain ⟨⟨hlt, hopen, hclose⟩, raw, hraw, spans, hspans, rfl⟩ := h
  exact ⟨rfl, by simp only; omega, by omega, hopen, hclose, raw, _, rfl, hraw, rfl, hspans⟩

theorem exists_cons_of_toSegment? (h : l.toSegment? source = some s) :
    ∃ rest, s = .kept mark l.openAt :: rest := by
  simp only [toSegment?, Option.bind_eq_bind, Option.bind_eq_some_iff, Option.pure_def,
    Option.some.injEq] at h
  obtain ⟨spans, -, rfl⟩ := h
  exact ⟨_, rfl⟩

theorem exists_toSegment? (hR : Composing source R) (hw : ∀ n ∈ t.children, n.Ranged source)
    (h : ofNode? source t = some l) :
    ∃ s, l.toSegment? source = some s ∧ R t.start t.stop s := by
  obtain ⟨hstart, hstop, hlt, hopen, hclose, raw, substitutions, rfl, hraw, hhead, hspans⟩ :=
    ofNode?_eq_some h
  obtain ⟨s, hs, hspanned⟩ :=
    hR.segmentOfSpans (fun n hn ↦ hw n (List.mem_of_mem_filter hn)) hspans
  have hfirst : R l.openAt (l.openAt + 1) (.copy l.openAt [mark]) := hR.copy (slice?_mark hopen)
  have hlast : R l.closeAt (l.closeAt + 1) (.copy l.closeAt [mark]) :=
    hR.copy (slice?_mark hclose)
  rw [← hstart, ← hstop]
  refine ⟨.copy l.openAt [mark] ++ l.head ++ s ++ .copy l.closeAt [mark], ?_, ?_⟩
  · rw [toSegment?, hs]
    rfl
  · rw [hhead]
    exact hR.append (hR.append (hR.append hfirst (hR.squeeze hraw)) hspanned) hlast

end Literal

/-- A marker call names the marker first and holds the template as its only argument. -/
theorem markedTemplate?_eq_some (h : markedTemplate? marker source n = some t) :
    n.kind = .call ∧ n.faulty = false ∧ t.kind = .template ∧
      ∃ callee arguments, callee? n = some callee ∧ callee.kind = .identifier ∧
        source.slice? callee.start callee.stop = some marker ∧
        arguments? n = some arguments ∧ arguments.kind = .arguments ∧ t ∈ arguments.children := by
  simp only [markedTemplate?, Option.bind_eq_bind] at h
  split at h
  · cases h
  · next hcall =>
    simp only [not_or, not_not, Bool.not_eq_true] at hcall
    obtain ⟨callee, hcallee, h⟩ := Option.bind_eq_some_iff.1 h
    split at h
    · cases h
    · next hname =>
      simp only [not_or, not_not] at hname
      obtain ⟨arguments, harguments, h⟩ := Option.bind_eq_some_iff.1 h
      split at h
      · cases h
      · next hkind =>
        split at h
        · next argument hargument =>
          obtain ⟨ht, he⟩ := Option.ite_none_right_eq_some.1 h
          cases he
          exact ⟨hcall.1, hcall.2, ht, callee, arguments, hcallee, hname.1, hname.2, harguments,
            not_not.1 hkind, List.mem_of_mem_filter (hargument ▸ List.mem_singleton_self t)⟩
        · cases h

theorem exists_at?_markedTemplate? (h : markedTemplate? marker source n = some t) :
    ∃ p, n.at? p = some t := by
  obtain ⟨-, -, -, -, arguments, -, -, -, harguments, -, ht⟩ := markedTemplate?_eq_some h
  have ha : arguments ∈ n.children := List.mem_of_mem_filter (List.mem_of_getLast? harguments)
  obtain ⟨i, hi⟩ := List.mem_iff_getElem?.1 ha
  obtain ⟨j, hj⟩ := List.mem_iff_getElem?.1 ht
  refine ⟨[i, j], ?_⟩
  rw [Node.at?_cons, hi, Option.bind_some, Node.at?_cons, hj]
  rfl

theorem callee_le_arguments {callee arguments : Node} (hw : n.Ranged source)
    (hcallee : callee? n = some callee) (hname : callee.kind = .identifier)
    (harguments : arguments? n = some arguments) (hkind : arguments.kind = .arguments) :
    n.start ≤ callee.start ∧ callee.stop ≤ arguments.start ∧ arguments.stop ≤ n.stop := by
  have hsub : [callee, arguments].Sublist (n.children.filter (·.kind.isNamed)) := by
    obtain ⟨named, hnamed⟩ := List.head?_eq_some_iff.1 hcallee
    rw [arguments?, hnamed] at harguments
    rw [hnamed]
    refine List.Sublist.cons_cons callee (List.singleton_sublist.2 ?_)
    rcases List.mem_cons.1 (List.mem_of_getLast? harguments) with rfl | hm
    · rw [hname] at hkind
      cases hkind
    · exact hm
  have ho := hw.ordered.sublist hw.children (hsub.trans List.filter_sublist)
  cases ho with
  | cons hstart ho =>
    cases ho with
    | cons hle ho =>
      cases ho with
      | nil hstop => exact ⟨hstart, hle, hstop⟩

theorem bounds_markedTemplate? (hw : n.Ranged source)
    (h : markedTemplate? marker source n = some t) :
    n.start + marker.size ≤ t.start ∧ t.stop ≤ n.stop := by
  obtain ⟨-, -, -, callee, arguments, hcallee, hkind, hname, harguments, hkind', ht⟩ :=
    markedTemplate?_eq_some h
  have hle := callee_le_arguments hw hcallee hkind harguments hkind'
  have ha : arguments ∈ n.children := List.mem_of_mem_filter (List.mem_of_getLast? harguments)
  have hwa := hw.children arguments ha
  have hat := (hwa.ordered.bounds hwa.children).2 t ht
  have hsize := size_of_slice? hname
  omega

theorem exists_segment_of_replacement? (hR : Composing source R) (hw : n.Ranged source)
    (h : replacement? marker source n = some l) :
    ∃ t s, markedTemplate? marker source n = some t ∧ Literal.ofNode? source t = some l ∧
      t.Ranged source ∧ n.start + marker.size ≤ t.start ∧ t.stop ≤ n.stop ∧
      l.toSegment? source = some s ∧ R t.start t.stop s := by
  obtain ⟨t, ht, hl⟩ := Option.bind_eq_some_iff.1 h
  obtain ⟨p, hp⟩ := exists_at?_markedTemplate? ht
  obtain ⟨hle, hle'⟩ := bounds_markedTemplate? hw ht
  obtain ⟨s, hs, hsegment⟩ := Literal.exists_toSegment? hR (hw.at? hp).children hl
  exact ⟨t, s, ht, hl, hw.at? hp, hle, hle', hs, hsegment⟩

theorem faithful_replacement? (hw : n.WellFormed source)
    (h : replacement? marker source n = some l) : ∃ s, l.toSegment? source = some s ∧
      Faithful source n.start n.stop s ∧
      Faithful source n.start n.stop (.spelled ';' n.start :: s) := by
  obtain ⟨t, s, ht, hl, -, hle, hle', hs, hfaithful⟩ :=
    exists_segment_of_replacement? (Faithful.accounting source).composing hw.ranged h
  obtain ⟨hk, hf, -⟩ := markedTemplate?_eq_some ht
  obtain ⟨-, hstop, hlt, -, hclose, -⟩ := Literal.ofNode?_eq_some hl
  have hclose' : source.charBefore? t.stop = some mark := by
    obtain ⟨a, r, he, ha⟩ := charAt?_eq_some.1 hclose
    exact charBefore?_eq_some.2 ⟨a, r, he, by rw [ha, ← hstop]; rfl⟩
  obtain ⟨c, hc⟩ : ∃ c, source.charAt? n.start = some c := by
    obtain ⟨a, ha⟩ := Option.isSome_iff_exists.1 hw.ranged.slice?_isSome
    cases a with
    | nil =>
      have hsize := size_of_slice? ha
      rw [size_nil] at hsize
      omega
    | cons c a => exact ⟨c, charAt?_of_slice? ha⟩
  have hb := hw.callsBegin.at? n.at?_nil hk hf
  rw [hc, Option.any_some] at hb
  have hcf : c ≠ '\n' := by
    rintro rfl
    cases hb
  have hwhole : Faithful source n.start n.stop s := by
    rw [← List.append_nil s]
    exact (hfaithful.skip (.of_charAt? (by omega) hc hcf)).append
      (.nil (.of_charBefore? hle' hclose' (by decide)))
  exact ⟨s, hs, hwhole, .spelled (.refl _ _) (by decide) rfl hc hb hwhole⟩

end TemplateSqueeze.Template
