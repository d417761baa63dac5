import TemplateSqueeze.Proofs.Edit.Origins
import TemplateSqueeze.Proofs.Edit.Outermost
import TemplateSqueeze.Proofs.Tree.Place

namespace TemplateSqueeze

open Text Template Segment

variable {marker source code : Text} {tree n m prev : Node} {l : Literal} {s : Segment}
  {lo hi a x : Nat} {c : Char} {es : List Edit} {guards : Nat → Prop} {p : List Nat}

namespace Edit.Sound

theorem exists_kept (h : Sound source (Inside source) a es) (hc : source.charAt? x = some c)
    (ha : a ≤ x) (hout : ∀ e ∈ es, e.stop ≤ x ∨ x < e.start) :
    ∃ pre post : Segment, spliceFrom source a es = some (pre ++ .kept c x :: post).text ∧
      originsFrom source.size a es = (pre ++ .kept c x :: post).origins ∧
      ∀ y ∈ post.origins, x < y := by
  have hpos := c.utf8Size_pos
  have hsize := charAt?_lt_size hc
  have hcopied (a : Nat) (pre post : Text) (hpre : a + pre.size = x) :
      copy a (pre ++ c :: post) = copy a pre ++ .kept c x :: copy (x + c.utf8Size) post := by
    rw [copy_append, hpre, copy]
  have hbehind (post : Text) : ∀ y ∈ (copy (x + c.utf8Size) post).origins, x < y := by
    intro y hy
    rw [origins_copy, List.mem_range'_1] at hy
    omega
  induction h with
  | @nil a hb =>
    obtain ⟨t, ht⟩ := exists_slice? hb (isBoundary_size source) hb.le_size
    obtain ⟨pre, post, rfl, hpre⟩ := exists_append_of_slice? ht hc ha (by omega)
    obtain ⟨hsplice, horigins⟩ := spliceFrom_nil ht
    rw [hcopied a pre post hpre] at hsplice horigins
    exact ⟨_, _, hsplice, horigins, hbehind post⟩
  | @cons a t e es s hslice hr ho hs htail ih =>
    obtain ⟨he, hes⟩ := List.forall_mem_cons.1 hout
    rcases he with hle | hlt
    · obtain ⟨pre, post, hrest, horest, hpost⟩ := ih hle hes
      obtain ⟨hsplice, horigins⟩ := spliceFrom_cons hslice hr ho hrest horest
      rw [← List.append_assoc] at hsplice horigins
      exact ⟨_, post, hsplice, horigins, hpost⟩
    · obtain ⟨pre, post, rfl, hpre⟩ := exists_append_of_slice? hslice hc ha hlt
      obtain ⟨rest, hrest, horest, hinside⟩ := htail.exists_splice (Inside.accounting source)
      obtain ⟨hsplice, horigins⟩ := spliceFrom_cons hslice hr ho hrest horest
      rw [hcopied a pre post hpre, List.append_assoc, List.append_assoc, List.cons_append]
        at hsplice horigins
      refine ⟨_, _, hsplice, horigins, fun y hy ↦ ?_⟩
      have hle := hs.1
      simp only [origins_append, List.mem_append] at hy
      rcases hy with hy | hy | hy
      · exact hbehind post y hy
      · have := (hs.2 y hy).1
        omega
      · have := (hinside.2 y hy).1
        omega

end Edit.Sound

/-- The marker calls of a tree end with a bracket. -/
def Node.CallsClosed (marker source : Text) (tree : Node) : Prop :=
  tree.Everywhere fun n ↦
    (markedTemplate? marker source n).isSome → source.charBefore? n.stop = some ')'

/-- The last byte that an output takes from before an offset is the semicolon that ends there. -/
def EndsKept (code : Text) (origins : List Nat) (stop : Nat) : Prop :=
  ∃ i x, x + 1 = stop ∧ origins[i]? = some x ∧ code.charAt? i = some ';' ∧
    ∀ j y, i < j → origins[j]? = some y → stop ≤ y

/-- A guard that stands for the first byte of a call comes right before the opening mark of the
literal. -/
def GuardBefore (code : Text) (origins : List Nat) (call : Node) (l : Literal) : Prop :=
  ∃ i, origins[i]? = some call.start ∧ code.charAt? i = some ';' ∧
    origins[i + 1]? = some l.openAt ∧ code.charAt? (i + 1) = some mark

/-- The marker call at a place gives way to its literal, as none of the nodes above it does. -/
structure Node.GivesWay (marker source : Text) (tree : Node) (p : List Nat) (n : Node)
    (l : Literal) : Prop where
  found : tree.at? p = some n
  literal : replacement? marker source n = some l
  above : ∀ q m, q <+: p → q ≠ p → tree.at? q = some m → replacement? marker source m = none

namespace Node.GivesWay

theorem iff_mem_offered : tree.GivesWay marker source p n l ↔
    (p, n) ∈ offered (replacement? marker source) tree ∧ replacement? marker source n = some l := by
  rw [mem_offered]
  constructor
  · rintro ⟨hfound, hl, habove⟩
    exact ⟨⟨hfound, habove⟩, hl⟩
  · rintro ⟨⟨hfound, habove⟩, hl⟩
    exact ⟨hfound, hl, habove⟩

theorem iff_mem_walk : tree.GivesWay marker source p n l ↔
    ∃ c, (c, l) ∈ walk (replacement? marker source) (.atRoot tree) ∧ c.path = p ∧ c.focus = n := by
  rw [iff_mem_offered, ← map_visits_atRoot, walk_eq_filterMap]
  simp only [List.mem_map, List.mem_filterMap, Option.map_eq_some_iff, Prod.mk.injEq]
  constructor
  · rintro ⟨⟨c, hc, rfl, rfl⟩, hl⟩
    exact ⟨c, ⟨c, hc, l, hl, rfl, rfl⟩, rfl, rfl⟩
  · rintro ⟨c, ⟨_, hc, _, hl, rfl, rfl⟩, rfl, rfl⟩
    exact ⟨⟨_, hc, rfl, rfl⟩, hl⟩

end Node.GivesWay

namespace Source

/-- An edit does not reach the semicolon that ends the statement before a literal. -/
theorem apart_of_standsBehind (h : tree.Ranged source) (hclosed : tree.CallsClosed marker source)
    {q : List Nat} {k : Literal} (hn : tree.GivesWay marker source p n l)
    (hm : tree.GivesWay marker source q m k) (hprev : tree.StandsBehind p n.start prev)
    (hsemicolon : source.charBefore? prev.stop = some ';') :
    m.stop < prev.stop ∨ prev.stop ≤ m.start := by
  obtain ⟨t, ht, -⟩ := Option.bind_eq_some_iff.1 hm.literal
  have hbracket : source.charBefore? m.stop = some ')' :=
    hclosed.at? hm.found (Option.isSome_iff_exists.2 ⟨t, ht⟩)
  -- One ends with a bracket, the other with a semicolon.
  have hne : m.stop ≠ prev.stop := by
    intro he
    rw [he, hsemicolon] at hbracket
    cases hbracket
  obtain ⟨r, j, hat, hr, hlength, hk⟩ := hprev.exists_at?
  rcases h.apart hm.found hat with hq | hq | hle | hle
  · rcases List.prefix_concat_iff.1 hq with rfl | hq
    · -- A call is no statement.
      obtain rfl := Option.some.inj (hm.found.symm.trans hat)
      rw [(markedTemplate?_eq_some ht).1] at hk
      cases hk
    · -- What is replaced above the statement would be above the call as well.
      have hlt : q.length < p.length := Nat.lt_of_le_of_lt hq.length_le hlength
      have hnone := hn.above q m (hq.trans hr) (fun he ↦ Nat.ne_of_lt hlt (he ▸ rfl)) hm.found
      rw [hm.literal] at hnone
      cases hnone
  · obtain ⟨u, rfl⟩ := hq
    have hfound := hm.found
    rw [Node.at?_append, hat] at hfound
    exact .inl (Nat.lt_of_le_of_ne ((h.at? hat).bounds hfound).2 hne)
  · exact .inl (Nat.lt_of_le_of_ne (Nat.le_trans hle (h.at? hat).start_le_stop) hne)
  · exact .inr hle

theorem needsGuard_iff {c : Cursor} (h : tree.LeadsTo c.focus c.frames) : needsGuard source c ↔
    ∃ prev, tree.StandsBehind c.path c.focus.start prev ∧
      source.charBefore? prev.stop ≠ some ';' := by
  simp only [Cursor.path, ← statementBefore?_iff h, needsGuard]
  split
  · next m hm => simp [hm]
  · next hm => simp [hm]

theorem exists_inside (marker : Text) (h : tree.Ranged source) :
    ∃ es, markerEdits marker source tree = some es ∧ Edit.Sound source (Inside source) 0 es :=
  exists_sound h fun _ _ _ hn hl ↦ inside_replacement? (h.at? hn) hl

theorem endsKept (h : tree.Ranged source) (hclosed : tree.CallsClosed marker source)
    (hes : markerEdits marker source tree = some es)
    (hsound : Edit.Sound source (Inside source) 0 es)
    (hcode : Edit.splice source es = some code) (hn : tree.GivesWay marker source p n l)
    (hprev : tree.StandsBehind p n.start prev)
    (hsemicolon : source.charBefore? prev.stop = some ';') :
    EndsKept code (Edit.spliceOrigins source.size es) prev.stop := by
  obtain ⟨x, hx, hc⟩ : ∃ x, x + 1 = prev.stop ∧ source.charAt? x = some ';' := by
    obtain ⟨a, r, he, hstop⟩ := charBefore?_eq_some.1 hsemicolon
    exact ⟨a.size, hstop, charAt?_eq_some.2 ⟨a, r, he, rfl⟩⟩
  have hout : ∀ e ∈ es, e.stop ≤ x ∨ x < e.start := by
    intro e he
    have hranges := List.mem_map_of_mem (f := Edit.range) he
    rw [Edit.map_range_mapM hes] at hranges
    obtain ⟨⟨c, k⟩, hc, hrange⟩ := List.mem_map.1 hranges
    have hstart : c.focus.start = e.start := congrArg Prod.fst hrange
    have hstop : c.focus.stop = e.stop := congrArg Prod.snd hrange
    have hapart := apart_of_standsBehind h hclosed hn
      (Node.GivesWay.iff_mem_walk.2 ⟨c, hc, rfl, rfl⟩) hprev hsemicolon
    omega
  obtain ⟨pre, post, hsplice, horigins, hbehind⟩ := hsound.exists_kept hc (Nat.zero_le x) hout
  obtain rfl := Option.some.inj (hcode.symm.trans hsplice)
  rw [Edit.spliceOrigins, horigins]
  refine ⟨(text pre).size, x, hx, getElem?_origins_offset, ?_, fun j y hj hy ↦ ?_⟩
  · exact charAt?_eq_some.2 ⟨text pre, text post, text_append _ _, rfl⟩
  · have hlength : (origins (pre ++ [.kept ';' x])).length ≤ j := by
      rw [length_origins, text_append, size_append]
      exact hj
    rw [← List.singleton_append, ← List.append_assoc, origins_append,
      List.getElem?_append_right hlength] at hy
    have := hbehind y (List.mem_of_getElem? hy)
    omega

/-- On every tree the two loops end, with the statement that stands behind a place if there is one.
A literal does not attach to that statement: the semicolon that ends it is the last byte of it in
the output, or else a guard stands right before the literal. Where no statement comes before, or a
semicolon ends it, there is no guard. -/
theorem guards_separate (marker source : Text) (tree : Node) :
    (∀ rule : Node → Option Literal, ∀ c ∈ visits rule (.atRoot tree), ∀ prev,
      (statementFrom? c.focus.start c.frames).bind statementBefore? = some prev ↔
        tree.StandsBehind c.path c.focus.start prev) ∧
    (tree.Ranged source → tree.CallsClosed marker source →
      ∃ q origins, squeeze marker source tree = .ok q ∧
        Edit.spliceOrigins source.size q.edits = origins ∧
        ∀ p n l, tree.GivesWay marker source p n l →
          (∀ prev, tree.StandsBehind p n.start prev →
            EndsKept q.code origins prev.stop ∨ GuardBefore q.code origins n l) ∧
          ∃ e ∈ q.edits, e.range = n.range ∧ ∃ s, l.toSegment? source = some s ∧
            s.text.head? = some mark ∧
            (e.replacement = s.text ∨ e.replacement = ';' :: s.text) ∧
            (e.replacement = ';' :: s.text ↔ ∃ prev, tree.StandsBehind p n.start prev ∧
              source.charBefore? prev.stop ≠ some ';')) := by
  have hroot : tree.LeadsTo (Cursor.atRoot tree).focus (Cursor.atRoot tree).frames := rfl
  refine ⟨fun rule c hc prev ↦ statementBefore?_iff (hroot.of_mem_visits c hc),
    fun h hclosed ↦ ?_⟩
  obtain ⟨es, hes, hsound⟩ := exists_inside marker h
  obtain ⟨s, hcode, hq, -⟩ := squeeze_eq (Inside.accounting source) hes hsound
  refine ⟨_, _, hq, rfl, fun p n l hn ↦ ?_⟩
  obtain ⟨c, hc, rfl, rfl⟩ := Node.GivesWay.iff_mem_walk.1 hn
  have hneeds : needsGuard source c ↔ _ := needsGuard_iff (Node.LeadsTo.of_mem_walk hc)
  refine ⟨fun prev hprev ↦ ?_, ?_⟩
  · by_cases hsemicolon : source.charBefore? prev.stop = some ';'
    · exact .inl (endsKept h hclosed hes hsound hcode hn hprev hsemicolon)
    · exact .inr (exists_guard hes hsound hcode hc (hneeds.2 ⟨prev, hprev, hsemicolon⟩))
  · obtain ⟨e, he, hce : Edit.ofLiteral source c l = some e⟩ := exists_mem_of_mapM hes hc
    obtain ⟨s, hs, -⟩ := inside_replacement? (h.at? hn.found) hn.literal
    obtain ⟨rest, rfl⟩ := Literal.exists_cons_of_toSegment? hs
    rw [Edit.ofLiteral_eq hs, Option.some.injEq] at hce
    refine ⟨e, he, by rw [← hce]; rfl, _, hs, rfl, ?_⟩
    rw [← hneeds, ← hce, guarded]
    by_cases hg : needsGuard source c
    · simp [hg, text_cons, Glyph.char]
    · simp [hg, text_cons, Glyph.char]

def listedText : Text := "a;\nT(\x60\x60)\nT(\x60\x60)\n".toList

def listedStatement (start : Nat) : Node :=
  ⟨.expressionStatement, start, start + 5, false, [callNode start (start + 5) []]⟩

def endedStatement : Node :=
  ⟨.expressionStatement, 0, 2, false, [⟨.identifier, 0, 1, false, []⟩, ⟨.token, 1, 2, false, []⟩]⟩

def listedTree : Node :=
  ⟨.program, 0, 15, false, [endedStatement, listedStatement 3, listedStatement 9]⟩

theorem squeeze_listedText : squeeze ['T'] listedText listedTree =
    .ok ⟨"a;\n\x60\x60\n;\x60\x60\n".toList,
      [⟨3, 8, "\x60\x60".toList, [5, 6]⟩, ⟨9, 14, ";\x60\x60".toList, [9, 11, 12]⟩]⟩ := by
  cbv

theorem guards_separate_listedText : listedTree.Nested listedText ∧
    listedTree.CallsClosed ['T'] listedText ∧ ∃ q origins,
      squeeze ['T'] listedText listedTree = .ok q ∧
      Edit.spliceOrigins listedText.size q.edits = origins ∧
      EndsKept q.code origins endedStatement.stop ∧
      ∃ l, GuardBefore q.code origins (callNode 9 14 []) l := by
  have hnested : listedTree.Nested listedText := by decide
  have hclosed : listedTree.CallsClosed ['T'] listedText := by
    unfold Node.CallsClosed
    decide
  obtain ⟨q, origins, hq, horigins, hcalls⟩ :=
    (guards_separate ['T'] listedText listedTree).2 hnested.ranged hclosed
  have hlist : origins = [0, 1, 2, 5, 6, 8, 9, 11, 12, 14] := by
    rw [squeeze_listedText] at hq
    cases hq
    exact horigins.symm.trans rfl
  have hfirst : listedTree.GivesWay ['T'] listedText [1, 0] (callNode 3 8 []) ⟨5, 6, [], []⟩ :=
    Node.GivesWay.iff_mem_offered.2 ⟨cons_mem_offered.2 ⟨rfl, _, rfl,
      cons_mem_offered.2 ⟨rfl, _, rfl, nil_mem_offered.2 rfl⟩⟩, by cbv⟩
  have hsecond : listedTree.GivesWay ['T'] listedText [2, 0] (callNode 9 14 []) ⟨11, 12, [], []⟩ :=
    Node.GivesWay.iff_mem_offered.2 ⟨cons_mem_offered.2 ⟨rfl, _, rfl,
      cons_mem_offered.2 ⟨rfl, _, rfl, nil_mem_offered.2 rfl⟩⟩, by cbv⟩
  have hclimb : listedTree.Climb 3 ([1] ++ [0]) [1] (listedStatement 3) := .found rfl rfl rfl
  have hclimb' : listedTree.Climb 9 ([2] ++ [0]) [2] (listedStatement 9) := .found rfl rfl rfl
  have hbehind : listedTree.StandsBehind [1, 0] 3 endedStatement :=
    @Node.StandsBehind.intro _ _ _ _ [] listedTree _ [] [] [listedStatement 9] hclimb
      rfl rfl rfl (List.forall_mem_nil _) rfl
  have hbehind' : listedTree.StandsBehind [2, 0] 9 (listedStatement 3) :=
    @Node.StandsBehind.intro _ _ _ _ [] listedTree _ [endedStatement] [] [] hclimb'
      rfl rfl rfl (List.forall_mem_nil _) rfl
  refine ⟨hnested, hclosed, q, origins, hq, horigins, ?_, ⟨11, 12, [], []⟩, ?_⟩
  · rcases (hcalls _ _ _ hfirst).1 _ hbehind with h | ⟨i, hi, -⟩
    · exact h
    · have hmem := List.mem_of_getElem? hi
      rw [hlist] at hmem
      exact absurd hmem (by decide)
  · rcases (hcalls _ _ _ hsecond).1 _ hbehind' with ⟨i, x, hx, hi, -⟩ | h
    · have hmem := List.mem_of_getElem? hi
      rw [hlist, Nat.succ.inj hx] at hmem
      exact absurd hmem (by decide)
    · exact h

end Source

end TemplateSqueeze
