import TemplateSqueeze.Proofs.Template.Literal
import TemplateSqueeze.Source

namespace TemplateSqueeze

open Text Template Segment

variable {marker source : Text} {tree : Node} {a b : Nat} {e : Edit} {es : List Edit}
  {before : Option Edit} {R : Nat → Nat → Segment → Prop} {rule : Node → Option Literal}

/-- Edits from an offset on, in order, that each replace a piece of the source by a segment that
accounts for it. -/
inductive Edit.Sound (source : Text) (R : Nat → Nat → Segment → Prop) : Nat → List Edit → Prop
  | nil {a : Nat} : source.IsBoundary a → Sound source R a []
  | cons {a : Nat} {t : Text} {e : Edit} {es : List Edit} {s : Segment} :
    source.slice? a e.start = some t → e.replacement = s.text → e.origins = s.origins →
    R e.start e.stop s → Sound source R e.stop es → Sound source R a (e :: es)

namespace Edit.Sound

theorem isBoundary (h : Sound source R a es) : source.IsBoundary a := by
  cases h with
  | nil h => exact h
  | cons h => exact (isBoundary_of_slice? h).1

theorem le (h : Sound source R a es) : a ≤ source.size := h.isBoundary.le_size

theorem isBoundary_of_mem (h : Sound source R a es) :
    ∀ e ∈ es, source.IsBoundary e.start ∧ source.IsBoundary e.stop := by
  induction h with
  | nil => nofun
  | cons hslice _ _ _ hs ih =>
    exact List.forall_mem_cons.2 ⟨⟨(isBoundary_of_slice? hslice).2, hs.isBoundary⟩, ih⟩

theorem start_le_stop (hR : Accounting source R) (h : Sound source R a es) :
    ∀ e ∈ es, e.start ≤ e.stop := by
  induction h with
  | nil => nofun
  | cons _ _ _ hs _ ih => exact List.forall_mem_cons.2 ⟨hR.le hs, ih⟩

theorem validateFrom_eq (hR : Accounting source R) (h : Sound source R a es) (index : Nat)
    (hb : ∀ b, before = some b → b.stop ≤ a) :
    validateFrom source.size index before es = .ok () := by
  induction h generalizing index before with
  | nil => rfl
  | @cons a t e es s hslice hr ho hf hs ih =>
    have hstart := size_of_slice? hslice
    have hle := hR.le hf
    have hstop := hs.le
    have hfault : e.fault? source.size index before = none := by
      have hfree : before.filter (e.start < ·.stop) = none := by
        rw [Option.filter_eq_none_iff]
        intro b hbm
        have := hb b hbm
        simp only [decide_eq_true_eq]
        omega
      have hcount : e.origins.length = e.replacement.size := by rw [ho, hr, length_origins]
      have horigins : e.origins.find? (source.size ≤ ·) = none := by
        rw [List.find?_eq_none]
        intro x hx
        rw [ho] at hx
        have := hR.lt_size hf x hx
        simp only [decide_eq_true_eq]
        omega
      rw [fault?, if_neg (by omega), if_neg (by omega), hfree]
      simp [hcount, horigins]
    rw [validateFrom, hfault]
    exact ih (index + 1) fun b hb ↦ by cases hb; exact Nat.le_refl _

theorem spliceFrom_cons {t : Text} {s rest : Segment} (hslice : source.slice? a e.start = some t)
    (hr : e.replacement = s.text) (ho : e.origins = s.origins)
    (hrest : spliceFrom source e.stop es = some rest.text)
    (horest : originsFrom source.size e.stop es = rest.origins) :
    spliceFrom source a (e :: es) = some (copy a t ++ s ++ rest).text ∧
      originsFrom source.size a (e :: es) = (copy a t ++ s ++ rest).origins := by
  have hsize := size_of_slice? hslice
  constructor
  · rw [text_append, text_append, text_copy, ← hr]
    exact spliceFrom_cons_eq_some.2 ⟨t, rest.text, hslice, hrest, rfl⟩
  · rw [originsFrom, horest, ho, origins_append, origins_append, origins_copy, ← hsize,
      Nat.add_sub_cancel_left]

theorem spliceFrom_nil {t : Text} (h : source.slice? a source.size = some t) :
    spliceFrom source a [] = some (copy a t).text ∧
      originsFrom source.size a [] = (copy a t).origins := by
  have hsize := size_of_slice? h
  exact ⟨by rw [spliceFrom, h, text_copy],
    by rw [originsFrom, origins_copy, ← hsize, Nat.add_sub_cancel_left]⟩

/-- Spliced in, the edits make the text of a segment that accounts for the rest of the source. -/
theorem exists_splice (hR : Accounting source R) (h : Sound source R a es) :
    ∃ s : Segment, spliceFrom source a es = some s.text ∧
      originsFrom source.size a es = s.origins ∧ R a source.size s := by
  induction h with
  | @nil a h =>
    obtain ⟨r, hr⟩ := exists_slice? h (isBoundary_size source) (nil (R := R) h).le
    obtain ⟨hsplice, horigins⟩ := spliceFrom_nil hr
    exact ⟨copy a r, hsplice, horigins, hR.copy hr⟩
  | @cons a t e es s hslice hr ho hf hs ih =>
    obtain ⟨rest, hrest, horest, hfrest⟩ := ih
    obtain ⟨hsplice, horigins⟩ := spliceFrom_cons hslice hr ho hrest horest
    exact ⟨_, hsplice, horigins, hR.append (hR.append (hR.copy hslice) hf) hfrest⟩

theorem exists_replacement {code : Text} (hcode : spliceFrom source a es = some code)
    (h : Sound source R a es) (he : e ∈ es) :
    ∃ pre post before behind, code = pre ++ e.replacement ++ post ∧
      originsFrom source.size a es = before ++ e.origins ++ behind ∧ before.length = pre.size := by
  induction h generalizing code with
  | nil => cases he
  | @cons a _ e' es s _ hr ho _ _ ih =>
    obtain ⟨t, rest, hslice, hrest, rfl⟩ := spliceFrom_cons_eq_some.1 hcode
    have hsize := size_of_slice? hslice
    rcases List.mem_cons.1 he with rfl | he
    · refine ⟨t, rest, _, _, rfl, rfl, ?_⟩
      rw [List.length_range', ← hsize, Nat.add_sub_cancel_left]
    · obtain ⟨pre, post, before, behind, rfl, horigins, hlength⟩ := ih hrest he
      refine ⟨t ++ e'.replacement ++ pre, post, _, behind, by simp only [List.append_assoc],
        by rw [originsFrom, horigins, ← List.append_assoc, ← List.append_assoc], ?_⟩
      rw [List.length_append, List.length_append, List.length_range', hlength, ho,
        length_origins, size_append, size_append, hr, ← hsize, Nat.add_sub_cancel_left]

end Edit.Sound

theorem Edit.splice_nil (source : Text) : splice source [] = some source :=
  slice?_eq_some.2 ⟨[], [], by simp, rfl, by simp⟩

theorem forall₂_of_mapM {α β : Type} {f : α → Option β} {xs : List α} {ys : List β}
    (h : xs.mapM f = some ys) : List.Forall₂ (fun x y ↦ f x = some y) xs ys := by
  induction xs generalizing ys with
  | nil =>
    cases h
    exact .nil
  | cons x xs ih =>
    simp only [List.mapM_cons, Option.bind_eq_bind, Option.bind_eq_some_iff, Option.pure_def,
      Option.some.injEq] at h
    obtain ⟨y, hy, ys, hys, rfl⟩ := h
    exact .cons hy (ih hys)

theorem exists_mem_of_mapM {α β : Type} {f : α → Option β} {xs : List α} {ys : List β} {x : α}
    (h : xs.mapM f = some ys) (hx : x ∈ xs) : ∃ y ∈ ys, f x = some y := by
  have hall := forall₂_of_mapM h
  clear h
  induction hall with
  | nil => cases hx
  | @cons _ y _ _ hy _ ih =>
    rcases List.mem_cons.1 hx with rfl | hx
    · exact ⟨y, List.mem_cons_self, hy⟩
    · obtain ⟨z, hz, hxz⟩ := ih hx
      exact ⟨z, List.mem_cons_of_mem y hz, hxz⟩

theorem guarded_of {P : Segment → Prop} {c : Cursor} {s : Segment} (h : P s)
    (hg : needsGuard source c → P (.spelled ';' c.focus.start :: s)) : P (guarded source c s) := by
  unfold guarded
  split
  · next hn => exact hg hn
  · exact h

theorem Edit.ofLiteral_eq {c : Cursor} {l : Literal} {s : Segment}
    (h : l.toSegment? source = some s) : ofLiteral source c l =
      some ⟨c.focus.start, c.focus.stop, (guarded source c s).text,
        (guarded source c s).origins⟩ := by
  rw [ofLiteral, h]
  rfl

theorem Edit.exists_mapM_ofLiteral {found : List (Cursor × Literal)}
    (ho : Node.Ordered a b (found.map fun x ↦ x.1.focus))
    (hw : ∀ x ∈ found, x.1.focus.Ranged source)
    (hR : ∀ x ∈ found, ∃ s, x.2.toSegment? source = some s ∧
      R x.1.focus.start x.1.focus.stop (guarded source x.1 s))
    (ha : source.IsBoundary a) :
    ∃ es, (found.mapM fun (c, l) ↦ ofLiteral source c l) = some es ∧ Sound source R a es := by
  induction found generalizing a with
  | nil => exact ⟨[], rfl, .nil ha⟩
  | cons x found ih =>
    obtain ⟨hstart, hstop⟩ := (hw x List.mem_cons_self).isBoundary
    obtain ⟨s, hs, hRs⟩ := hR x List.mem_cons_self
    cases ho with
    | cons hle ho =>
      obtain ⟨es, hes, hsound⟩ := ih ho (fun y hy ↦ hw y (List.mem_cons_of_mem x hy))
        (fun y hy ↦ hR y (List.mem_cons_of_mem x hy)) hstop
      obtain ⟨gap, hgap⟩ := exists_slice? ha hstart hle
      refine ⟨⟨x.1.focus.start, x.1.focus.stop, (guarded source x.1 s).text,
        (guarded source x.1 s).origins⟩ :: es, ?_, .cons hgap rfl rfl hRs hsound⟩
      rw [List.mapM_cons, hes]
      simp only [ofLiteral_eq hs]
      rfl

theorem Edit.exists_ofTree (h : tree.Ranged source)
    (hR : ∀ x ∈ walk rule (.atRoot tree), ∃ s, x.2.toSegment? source = some s ∧
      R x.1.focus.start x.1.focus.stop (guarded source x.1 s)) :
    ∃ es, ofTree source rule tree = some es ∧ Sound source R 0 es := by
  refine exists_mapM_ofLiteral ((ordered_walk rule h).le_trans (Nat.zero_le _)) (fun x hx ↦ ?_) hR
    ⟨[], source, rfl, rfl⟩
  obtain ⟨-, p, hp⟩ := exists_at?_of_mem_walk hx
  exact h.at? hp

namespace Source

theorem squeeze_eq (hR : Accounting source R) (hm : markerEdits marker source tree = some es)
    (h : Edit.Sound source R 0 es) : ∃ s : Segment, Edit.splice source es = some s.text ∧
      squeeze marker source tree = .ok ⟨s.text, es⟩ ∧
      Edit.spliceOrigins source.size es = s.origins ∧ R 0 source.size s := by
  obtain ⟨s, hsplice, horigins, hs⟩ := h.exists_splice hR
  have hvalid : Edit.validate source.size es = .ok () := h.validateFrom_eq hR 0 nofun
  have hspliced : Edit.splice source es = some s.text := hsplice
  refine ⟨s, hspliced, ?_, horigins, hs⟩
  rw [squeeze, hm]
  simp only [hvalid, hspliced]
  rfl

theorem squeezeMapped_eq {q : Squeezed} {fileName : Text}
    (hq : squeeze marker source tree = .ok q) :
    squeezeMapped marker source fileName tree =
      .ok ⟨q.code, SourceMap.create source q.code fileName q.edits⟩ := by
  rw [squeezeMapped, hq]
  rfl

theorem squeezeCarried_eq {q : Squeezed} (hq : squeeze marker source tree = .ok q) (map : Text) :
    squeezeCarried marker source map tree =
      match SourceMap.read map with
      | .ok tokens =>
        .ok ⟨q.code, SourceMap.write none (SourceMap.carryTokens source q.code q.edits tokens)⟩
      | .error e => .error (.map e) := by
  rw [squeezeCarried, hq]
  simp only [SourceMap.carry]
  cases SourceMap.read map with
  | ok tokens => rfl
  | error e => rfl

theorem exists_sound (h : tree.Ranged source)
    (hR : ∀ p n l, tree.at? p = some n → replacement? marker source n = some l →
      ∃ s, l.toSegment? source = some s ∧ R n.start n.stop s ∧
        R n.start n.stop (.spelled ';' n.start :: s)) :
    ∃ es, markerEdits marker source tree = some es ∧ Edit.Sound source R 0 es := by
  apply Edit.exists_ofTree h
  intro x hx
  obtain ⟨hr, p, hp⟩ := exists_at?_of_mem_walk hx
  obtain ⟨s, hs, hplain, hguard⟩ := hR p x.1.focus x.2 hp hr
  exact ⟨s, hs, guarded_of hplain fun _ ↦ hguard⟩

/-- A source with a well-formed tree is always squeezed, and faithfully so. -/
theorem exists_squeeze (marker : Text) (h : tree.WellFormed source) :
    ∃ (q : Squeezed) (s : Segment), squeeze marker source tree = .ok q ∧ q.code = s.text ∧
      Edit.spliceOrigins source.size q.edits = s.origins ∧ Faithful source 0 source.size s := by
  obtain ⟨es, hes, hsound⟩ := exists_sound h.ranged fun _ _ _ hn hl ↦
    faithful_replacement? (h.at? hn) hl
  obtain ⟨s, -, hq, horigins, hs⟩ := squeeze_eq (Faithful.accounting source) hes hsound
  exact ⟨_, s, hq, rfl, horigins, hs⟩

end Source

def templateNode (start stop : Nat) (substitutions : List Node) : Node :=
  ⟨.template, start, stop, false, ⟨.token, start, start + 1, false, []⟩ ::
    (substitutions ++ [⟨.token, stop - 1, stop, false, []⟩])⟩

def callNode (start stop : Nat) (substitutions : List Node) : Node :=
  ⟨.call, start, stop, false, [⟨.identifier, start, start + 1, false, []⟩,
    ⟨.arguments, start + 1, stop, false, [⟨.token, start + 1, start + 2, false, []⟩,
      templateNode (start + 2) (stop - 1) substitutions,
      ⟨.token, stop - 1, stop, false, []⟩]⟩]⟩

def sampleText : Text := "T(\x60a  b\x60)\n".toList

def sampleTree : Node :=
  ⟨.program, 0, 10, false, [⟨.expressionStatement, 0, 9, false, [callNode 0 9 []]⟩]⟩

theorem wellFormed_sampleTree : sampleTree.WellFormed sampleText := by
  decide

/-- A marker call that needs a guard, with a dollar that needs another spelling in its template. -/
def guardedText : Text := "a\nT(\x60$  \x7b\x60)\n".toList

def guardedTree : Node :=
  ⟨.program, 0, 12, false, [⟨.expressionStatement, 0, 1, false, [⟨.identifier, 0, 1, false, []⟩]⟩,
    ⟨.expressionStatement, 2, 11, false, [callNode 2 11 []]⟩]⟩

theorem nested_guardedTree : guardedTree.Nested guardedText := by
  decide

end TemplateSqueeze
