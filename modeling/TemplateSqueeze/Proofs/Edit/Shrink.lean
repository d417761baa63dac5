import TemplateSqueeze.Proofs.Edit.Total
import TemplateSqueeze.Proofs.Template.Lexemes

namespace TemplateSqueeze

open Text Template Segment

variable {marker source : Text} {tree n t : Node} {l : Literal} {us : List Lexeme} {u : Lexeme}
  {a : Nat} {es : List Edit}

namespace Template

theorem ne_nil_of_mem_lexemes {t : Text} (h : u ∈ lexemes t) : u.text ≠ [] := by
  fun_induction lexemes t with
  | case1 => cases h
  | case2 c t l ih =>
    rcases List.mem_cons.1 h with rfl | h
    · exact List.ne_nil_of_length_pos (Lexeme.length_first_pos c t)
    · exact ih h

theorem countP_le_size (h : ∀ u ∈ us, u.text ≠ []) :
    us.countP (·.kind = .space) ≤ size (us.flatMap Lexeme.text) := by
  induction us with
  | nil => exact Nat.le_refl _
  | cons u us ih =>
    obtain ⟨hu, hus⟩ := List.forall_mem_cons.1 h
    have hpos : 0 < u.text.size := Nat.pos_iff_ne_zero.2 fun hz ↦ hu (size_eq_zero.1 hz)
    have hle := ih hus
    rw [List.flatMap_cons, size_append]
    by_cases hk : u.kind = .space
    · rw [List.countP_cons_of_pos (by simpa using hk)]
      omega
    · rw [List.countP_cons_of_neg (by simpa using hk)]
      omega

theorem size_trail_append_drop (h : ∀ v ∈ us, v.text ≠ [])
    (hle : 2 ≤ (row us).countP (·.kind = .space)) :
    size ((trail (row us) ++ us.drop (row us).length).flatMap Lexeme.text) + 2 ≤
      size (us.flatMap Lexeme.text) := by
  obtain ⟨passed, hpassed⟩ := trail_append_drop_suffix us
  have hcount : (row us).countP (·.kind = .space) = passed.countP (·.kind = .space) := by
    have happend : passed ++ trail (row us) = row us := by
      have hall := hpassed.trans (row_append_drop us).symm
      rw [← List.append_assoc] at hall
      exact List.append_cancel_right hall
    have htrail : (trail (row us)).countP (·.kind = .space) = 0 := by
      rw [List.countP_eq_zero]
      intro v hv
      simp [kind_of_mem_trail hv]
    rw [← happend, List.countP_append, htrail, Nat.add_zero]
  have hne : ∀ v ∈ passed, v.text ≠ [] := fun v hv ↦ h v (hpassed ▸ List.mem_append_left _ hv)
  have hsize := countP_le_size hne
  have htotal : us.flatMap Lexeme.text = passed.flatMap Lexeme.text ++
      (trail (row us) ++ us.drop (row us).length).flatMap Lexeme.text := by
    rw [← List.flatMap_append, hpassed]
  rw [htotal, size_append]
  omega

theorem size_respelled_le (u : Lexeme) (next : Option Char) :
    (u.respelled next).size ≤ u.text.size + if next = none then 0 else 2 := by
  rw [Lexeme.respelled, respelling?_eq]
  split
  · next h =>
    rw [h.1, h.2]
    decide
  · split
    · next h =>
      rw [h.1, if_neg (by rintro rfl; cases h.2)]
      decide
    · exact Nat.le_add_right _ _

theorem behindRun?_eq_none (h : (row us).countP (·.kind = .space) < 2) : behindRun? us = none := by
  cases us with
  | nil => rfl
  | cons u us => exact if_neg fun hboth ↦ Nat.not_lt_of_le hboth.2 h

theorem size_squeezeUnits_le (h : ∀ u ∈ us, u.text ≠ []) :
    (squeezeUnits us).size + (if behindRun? us = none then 0 else 2) ≤
      size (us.flatMap Lexeme.text) := by
  induction hn : size (us.flatMap Lexeme.text) using Nat.strongRecOn generalizing us with
  | _ n ih =>
    subst hn
    cases us with
    | nil =>
      rw [squeezeUnits]
      exact Nat.le_refl _
    | cons u us =>
      -- A unit is spelled longer only before a run, which has two bytes to spare for that.
      obtain ⟨hu, hus⟩ := List.forall_mem_cons.1 h
      have hpos : 0 < u.text.size := Nat.pos_iff_ne_zero.2 fun hz ↦ hu (size_eq_zero.1 hz)
      have htotal : size ((u :: us).flatMap Lexeme.text) =
          u.text.size + size (us.flatMap Lexeme.text) := by
        rw [List.flatMap_cons, size_append]
      have htail := ih _ (by omega) hus rfl
      by_cases hk : u.kind = .space
      · by_cases hle : 2 ≤ (row (u :: us)).countP (·.kind = .space)
        · have hless := size_trail_append_drop h hle
          have hrest := ih _ (by omega)
            (fun v hv ↦ h v ((trail_append_drop_suffix _).subset hv)) rfl
          rw [squeezeUnits_run hk hle]
          split <;> omega
        · rw [squeezeUnits_alone hk (Nat.lt_of_not_le hle),
            behindRun?_eq_none (Nat.lt_of_not_le hle), if_pos rfl, size_append]
          omega
      · have hnone : behindRun? (u :: us) = none :=
          behindRun?_of_ne_space fun v hv ↦ by cases hv; exact hk
        have hgain := size_respelled_le u (behindRun? us)
        rw [squeezeUnits_cons hk, hnone, if_pos rfl, size_append]
        omega

theorem size_squeeze_le (t : Text) (origin : Nat) : (squeeze t origin).text.size ≤ t.size := by
  have htext : (squeeze t origin).text = squeezeUnits (lexemes t) := text_squeezeFrom_none origin t
  have hle := size_squeezeUnits_le fun u (hu : u ∈ lexemes t) ↦ ne_nil_of_mem_lexemes hu
  rw [flatMap_text_lexemes] at hle
  rw [htext]
  exact Nat.le_trans (Nat.le_add_right _ _) hle

def Segment.Fits (lo hi : Nat) (s : Segment) : Prop := lo + s.text.size ≤ hi

theorem Segment.Fits.composing (source : Text) : Composing source fun lo hi s ↦ s.Fits lo hi where
  nil lo := Nat.le_refl lo
  copy {lo hi t} h := by
    have hsize := size_of_slice? h
    rw [Fits, text_copy, hsize]
  squeeze {lo hi t} h := by
    have hsize := size_of_slice? h
    have := size_squeeze_le t lo
    unfold Fits
    omega
  append {lo mid hi s s'} h h' := by
    unfold Fits at h h' ⊢
    rw [text_append, size_append]
    omega

def Segment.Shrinks (lo hi : Nat) (s : Segment) : Prop := lo + s.text.size + 2 ≤ hi

end Template

/-- A call that is written as a name and, behind it, arguments between round brackets. -/
def Node.CallWritten (source : Text) (n : Node) : Prop :=
  ∃ callee arguments opening between closing, callee? n = some callee ∧
    callee.start < callee.stop ∧ arguments? n = some arguments ∧
    arguments.children = opening :: (between ++ [closing]) ∧
    opening.kind = .token ∧ source.slice? opening.start opening.stop = some ['('] ∧
    closing.kind = .token ∧ source.slice? closing.start closing.stop = some [')']

/-- What the grammar promises of the marker calls in a tree. -/
def Node.CallsWritten (marker source : Text) (tree : Node) : Prop :=
  tree.Everywhere fun n ↦ ∀ l, replacement? marker source n = some l → n.CallWritten source

section

variable {kind : Kind} {start stop : Nat} {faulty : Bool} {children : List Node}

theorem Node.CallsWritten.of_kind (hk : kind ≠ .call)
    (hc : ∀ c ∈ children, c.CallsWritten marker source) :
    CallsWritten marker source ⟨kind, start, stop, faulty, children⟩ := by
  refine .intro (fun l hl ↦ absurd ?_ hk) hc
  obtain ⟨t, ht, -⟩ := Option.bind_eq_some_iff.1 hl
  exact (markedTemplate?_eq_some ht).1

theorem Node.CallsWritten.leaf (hk : kind ≠ .call) :
    CallsWritten marker source ⟨kind, start, stop, faulty, []⟩ :=
  .of_kind hk (List.forall_mem_nil _)

end

theorem Node.CallWritten.bounds (hw : n.Ranged source) (hc : n.CallWritten source)
    (h : markedTemplate? marker source n = some t) :
    n.start + 2 ≤ t.start ∧ t.stop + 1 ≤ n.stop := by
  obtain ⟨callee, arguments, opening, between, closing, hcallee, hname, harguments, hchildren,
    hopening, hopen, hclosing, hclose⟩ := hc
  obtain ⟨-, -, hk, callee', arguments', hcallee', hidentifier, -, harguments', hkind, ht⟩ :=
    markedTemplate?_eq_some h
  rw [hcallee] at hcallee'
  rw [harguments] at harguments'
  cases hcallee'
  cases harguments'
  have hle := callee_le_arguments hw hcallee hidentifier harguments hkind
  have ha : arguments ∈ n.children := List.mem_of_mem_filter (List.mem_of_getLast? harguments)
  have hwa := hw.children arguments ha
  -- The template is neither of the brackets, as these are tokens.
  have hsub : [opening, t, closing].Sublist arguments.children := by
    rw [hchildren] at ht ⊢
    refine List.Sublist.cons_cons opening ((List.singleton_sublist.2 ?_).append (.refl [closing]))
    simp only [List.mem_cons, List.mem_append, List.not_mem_nil, or_false] at ht
    rcases ht with rfl | ht | rfl
    · rw [hk] at hopening
      cases hopening
    · exact ht
    · rw [hk] at hclosing
      cases hclosing
  have hopen := size_of_slice? hopen
  have hclose := size_of_slice? hclose
  rw [size_cons, size_nil] at hopen hclose
  cases hwa.ordered.sublist hwa.children hsub with
  | cons hfirst ho =>
    cases ho with
    | cons hsecond ho =>
      cases ho with
      | cons hthird ho =>
        cases ho with
        | nil hlast =>
          have hone : '('.utf8Size = 1 := rfl
          have hone' : ')'.utf8Size = 1 := rfl
          omega

theorem exists_short_replacement (hw : n.Ranged source) (hc : n.CallWritten source)
    (h : replacement? marker source n = some l) :
    ∃ s, l.toSegment? source = some s ∧ n.start + s.text.size + 3 ≤ n.stop := by
  obtain ⟨t, s, ht, -, -, -, -, hs, hfits⟩ :=
    exists_segment_of_replacement? (Fits.composing source) hw h
  obtain ⟨hstart, hstop⟩ := hc.bounds hw ht
  unfold Fits at hfits
  exact ⟨s, hs, by omega⟩

theorem Edit.Sound.size_splice {code : Text} (h : Sound source (fun lo hi s ↦ s.Shrinks lo hi) a es)
    (hcode : spliceFrom source a es = some code) :
    a + code.size + 2 * es.length ≤ source.size := by
  induction h generalizing code with
  | nil _ =>
    have hsize := size_of_slice? hcode
    exact Nat.le_of_eq hsize
  | @cons a t e es s hslice hr _ hs _ ih =>
    obtain ⟨kept, rest, hkept, hrest, rfl⟩ := spliceFrom_cons_eq_some.1 hcode
    have hsize := size_of_slice? hkept
    have hle := ih hrest
    unfold Shrinks at hs
    rw [size_append, size_append, hr, List.length_cons]
    omega

def nestedText : Text := "T(\x60a  $\x7bT(\x60b  c\x60)\x7d\x60)".toList

def innerText : Text := "\x60a$\x7bT(\x60b  c\x60)\x7d\x60".toList

def substitutionNode (start stop : Nat) : Node :=
  ⟨.substitution, start, stop, false, [⟨.token, start, start + 2, false, []⟩,
    callNode (start + 2) (stop - 1) [], ⟨.token, stop - 1, stop, false, []⟩]⟩

def nestedTree : Node :=
  ⟨.program, 0, 20, false, [⟨.expressionStatement, 0, 20, false,
    [callNode 0 20 [substitutionNode 6 18]]⟩]⟩

def innerTree : Node :=
  ⟨.program, 0, 15, false, [⟨.expressionStatement, 0, 15, false,
    [templateNode 0 15 [substitutionNode 2 14]]⟩]⟩

/-- Reads the nested calls and what a first pass leaves of them, and takes any other source for one
without calls. -/
def nestedParse (source : Text) : Node :=
  if source = nestedText then nestedTree
  else if source = innerText then innerTree
  else ⟨.program, 0, source.size, false, []⟩

theorem callsWritten_templateNode {start stop : Nat} {substitutions : List Node}
    (hc : ∀ c ∈ substitutions, c.CallsWritten marker source) :
    (templateNode start stop substitutions).CallsWritten marker source := by
  refine .of_kind (by decide) ?_
  simp only [List.forall_mem_cons, List.forall_mem_append]
  exact ⟨.leaf (by decide), hc, .leaf (by decide), List.forall_mem_nil _⟩

theorem callsWritten_callNode {start stop : Nat} {substitutions : List Node}
    (hopen : source.slice? (start + 1) (start + 2) = some ['('])
    (hclose : source.slice? (stop - 1) stop = some [')'])
    (hc : ∀ c ∈ substitutions, c.CallsWritten marker source) :
    (callNode start stop substitutions).CallsWritten marker source := by
  have hwritten : (callNode start stop substitutions).CallWritten source :=
    ⟨_, _, _, [_], _, rfl, Nat.lt_succ_self _, rfl, rfl, rfl, hopen, rfl, hclose⟩
  have hchildren : ∀ c ∈ (callNode start stop substitutions).children,
      c.CallsWritten marker source := by
    simp only [callNode, List.forall_mem_cons]
    refine ⟨.leaf (by decide), .of_kind (by decide) ?_, List.forall_mem_nil _⟩
    simp only [List.forall_mem_cons]
    exact ⟨.leaf (by decide), callsWritten_templateNode hc, .leaf (by decide),
      List.forall_mem_nil _⟩
  exact .intro (fun _ _ ↦ hwritten) hchildren

theorem callsWritten_substitutionNode {start stop : Nat}
    (hopen : source.slice? (start + 3) (start + 4) = some ['('])
    (hclose : source.slice? (stop - 1 - 1) (stop - 1) = some [')']) :
    (substitutionNode start stop).CallsWritten marker source := by
  refine .of_kind (by decide) ?_
  simp only [List.forall_mem_cons]
  exact ⟨.leaf (by decide), callsWritten_callNode hopen hclose (List.forall_mem_nil _),
    .leaf (by decide), List.forall_mem_nil _⟩

theorem ranged_nestedParse (source : Text) : (nestedParse source).Ranged source := by
  unfold nestedParse
  split
  · next h =>
    rw [h]
    decide
  · split
    · next h =>
      rw [h]
      decide
    · have hwhole : source.slice? 0 source.size = some source :=
        slice?_eq_some.2 ⟨[], [], by simp, rfl, by simp⟩
      exact .intro ⟨by rw [hwhole]; rfl, .nil (Nat.zero_le _)⟩ nofun

theorem callsWritten_nestedParse (source : Text) :
    (nestedParse source).CallsWritten ['T'] source := by
  unfold nestedParse
  split
  · next h =>
    rw [h]
    refine .of_kind (by decide) (List.forall_mem_singleton.2 ?_)
    refine .of_kind (by decide) (List.forall_mem_singleton.2 ?_)
    refine callsWritten_callNode (by decide) (by decide) (List.forall_mem_singleton.2 ?_)
    exact callsWritten_substitutionNode (by decide) (by decide)
  · split
    · next h =>
      rw [h]
      refine .of_kind (by decide) (List.forall_mem_singleton.2 ?_)
      refine .of_kind (by decide) (List.forall_mem_singleton.2 ?_)
      refine callsWritten_templateNode (List.forall_mem_singleton.2 ?_)
      exact callsWritten_substitutionNode (by decide) (by decide)
    · exact .leaf (by decide)

namespace Source

theorem exists_shrinking (h : tree.Ranged source) (hc : tree.CallsWritten marker source) :
    ∃ es, markerEdits marker source tree = some es ∧
      Edit.Sound source (fun lo hi s ↦ s.Shrinks lo hi) 0 es := by
  refine exists_sound h fun p n l hn hl ↦ ?_
  obtain ⟨s, hs, hle⟩ := exists_short_replacement (h.at? hn) (hc.at? hn l hl) hl
  refine ⟨s, hs, ?_, ?_⟩
  · unfold Shrinks
    omega
  · have hguard : (text (.spelled ';' n.start :: s)).size = 1 + s.text.size := rfl
    unfold Shrinks
    omega

theorem exists_squeeze_shrinking (h : tree.Ranged source)
    (hc : tree.CallsWritten marker source) : ∃ code edits, Edit.splice source edits = some code ∧
      squeeze marker source tree = .ok ⟨code, edits⟩ ∧
      code.size + 2 * edits.length ≤ source.size := by
  obtain ⟨es, hes, hbounded⟩ := exists_markerEdits marker h
  obtain ⟨es', hes', hshrinking⟩ := exists_shrinking h hc
  obtain rfl := Option.some.inj (hes.symm.trans hes')
  obtain ⟨s, hsplice, hq, -⟩ := squeeze_eq (Bounded.accounting source) hes hbounded
  have hle := hshrinking.size_splice hsplice
  exact ⟨s.text, es, hsplice, hq, by simpa using hle⟩

/-- Squeezes a source several times, each time with a tree of its own. -/
def squeezeTimes (marker : Text) (parse : Text → Node) : Nat → Text → Except SqueezeError Text
  | 0, source => .ok source
  | n + 1, source => do
    let q ← squeeze marker source (parse source)
    squeezeTimes marker parse n q.code

theorem exists_squeezeTimes {parse : Text → Node}
    (h : ∀ s, (parse s).Ranged s ∧ (parse s).CallsWritten marker s) (source : Text) :
    ∃ n s, 2 * n ≤ source.size ∧ squeezeTimes marker parse n source = .ok s ∧
      squeeze marker s (parse s) = .ok ⟨s, []⟩ := by
  induction hm : source.size using Nat.strongRecOn generalizing source with
  | _ m ih =>
    subst hm
    obtain ⟨code, edits, hsplice, hq, hle⟩ := exists_squeeze_shrinking (h source).1 (h source).2
    cases edits with
    | nil =>
      obtain rfl := Option.some.inj (hsplice.symm.trans (Edit.splice_nil source))
      exact ⟨0, code, Nat.zero_le _, rfl, hq⟩
    | cons e edits =>
      rw [List.length_cons] at hle
      obtain ⟨n, s, hn, htimes, hrest⟩ := ih code.size (by omega) code rfl
      refine ⟨n + 1, s, by omega, ?_, hrest⟩
      rw [squeezeTimes, hq]
      exact htimes

/-- Every call that is replaced takes two bytes off the source at least. So with trees from any
parser that keeps to the grammar, a source squeezed again and again comes to rest, after half as
many passes as it has bytes at most. -/
theorem squeeze_shrinks (marker : Text) :
    (∀ source tree, tree.Ranged source → tree.CallsWritten marker source →
      ∃ q, squeeze marker source tree = .ok q ∧
        q.code.size + 2 * q.edits.length ≤ source.size) ∧
    ∀ parse : Text → Node, (∀ s, (parse s).Ranged s ∧ (parse s).CallsWritten marker s) →
      ∀ source, ∃ n s, n ≤ source.size / 2 ∧ squeezeTimes marker parse n source = .ok s ∧
        squeeze marker s (parse s) = .ok ⟨s, []⟩ := by
  constructor
  · intro source tree hranged hc
    obtain ⟨code, edits, -, hq, hle⟩ := exists_squeeze_shrinking hranged hc
    exact ⟨_, hq, hle⟩
  · intro parse h source
    obtain ⟨n, s, hn, htimes, hrest⟩ := exists_squeezeTimes h source
    exact ⟨n, s, by omega, htimes, hrest⟩

theorem squeeze_shrinks_nestedText :
    squeezeTimes ['T'] nestedParse 1 nestedText = .ok innerText ∧
      ∃ n s, n ≤ 10 ∧ squeezeTimes ['T'] nestedParse n nestedText = .ok s ∧
        squeeze ['T'] s (nestedParse s) = .ok ⟨s, []⟩ := by
  have hfirst : squeezeTimes ['T'] nestedParse 1 nestedText = .ok innerText := by cbv
  exact ⟨hfirst, (squeeze_shrinks ['T']).2 nestedParse
    (fun s ↦ ⟨ranged_nestedParse s, callsWritten_nestedParse s⟩) nestedText⟩

end Source

end TemplateSqueeze
