import TemplateSqueeze.Proofs.Template.Settled
import TemplateSqueeze.Proofs.Template.Traced

namespace TemplateSqueeze.Template

open Text Segment

variable {source raw : Text} {lo hi : Nat} {t : Node} {ns : List Node}
  {R : Nat → Nat → Segment → Prop}

structure Tile where
  substitution : Node
  written : Text
  raw : Text

namespace Tile

def text (x : Tile) : Text := x.written ++ x.raw

def squeezed (x : Tile) : Segment :=
  .copy x.substitution.start x.written ++ squeeze x.raw x.substitution.stop

def span (x : Tile) (index count : Nat) : Span :=
  ⟨x.substitution, squeeze x.raw x.substitution.stop, .ofIndex index count⟩

end Tile

/-- Raw text and then tiles fill the source from `lo` up to `hi`, with nothing between them. -/
inductive Tiled (source : Text) : Nat → Nat → Text → List Tile → Prop
  | last {lo hi : Nat} {raw : Text} : source.slice? lo hi = some raw → Tiled source lo hi raw []
  | step {lo hi : Nat} {raw : Text} {x : Tile} {tiles : List Tile} :
    source.slice? lo x.substitution.start = some raw →
    source.slice? x.substitution.start x.substitution.stop = some x.written →
    Tiled source x.substitution.stop hi x.raw tiles → Tiled source lo hi raw (x :: tiles)

theorem exists_tiled (hlo : source.IsBoundary lo) (hhi : source.IsBoundary hi)
    (ho : Node.Ordered lo hi ns) (hns : ∀ n ∈ ns, (source.slice? n.start n.stop).isSome) :
    ∃ raw tiles, Tiled source lo hi raw tiles ∧ tiles.map Tile.substitution = ns := by
  induction ns generalizing lo with
  | nil =>
    cases ho with
    | nil hle =>
      obtain ⟨raw, hraw⟩ := exists_slice? hlo hhi hle
      exact ⟨raw, [], .last hraw, rfl⟩
  | cons n ns ih =>
    cases ho with
    | cons hle ho =>
      rw [List.forall_mem_cons] at hns
      obtain ⟨written, hwritten⟩ := Option.isSome_iff_exists.1 hns.1
      obtain ⟨hstart, hstop⟩ := isBoundary_of_slice? hwritten
      obtain ⟨raw, hraw⟩ := exists_slice? hlo hstart hle
      obtain ⟨behind, tiles, htiled, rfl⟩ := ih hstop ho hns.2
      exact ⟨raw, ⟨n, written, behind⟩ :: tiles, .step hraw hwritten htiled, rfl⟩

namespace Tiled

variable {tiles : List Tile}

theorem slice?_raw (h : Tiled source lo hi raw tiles) : source.slice? lo
    (((tiles.map Tile.substitution).head?.map Node.start).getD hi) = some raw := by
  cases h with
  | last h => exact h
  | step h => exact h

theorem spansOf_eq (h : Tiled source lo hi raw tiles) (index count : Nat) :
    spansOf source hi index count (tiles.map Tile.substitution) =
      some (tiles.mapIdx fun i x ↦ x.span (index + i) count) := by
  induction h generalizing index with
  | last => rfl
  | step _ _ h ih =>
    rw [List.map_cons, spansOf, h.slice?_raw, ih, List.mapIdx_cons]
    simp only [Nat.add_assoc, Nat.add_comm 1]
    rfl

theorem segmentOfSpans_eq (h : Tiled source lo hi raw tiles) (index count : Nat) :
    Literal.segmentOfSpans source (tiles.mapIdx fun i x ↦ x.span (index + i) count) =
      some (tiles.flatMap Tile.squeezed) := by
  induction h generalizing index with
  | last => rfl
  | step _ hwritten _ ih =>
    have hrest := ih (index + 1)
    simp only [Nat.add_assoc, Nat.add_comm 1] at hrest
    rw [List.mapIdx_cons, Literal.segmentOfSpans]
    simp only [Tile.span, hwritten] at hrest ⊢
    rw [hrest]
    rfl

theorem slice?_text (h : Tiled source lo hi raw tiles) :
    source.slice? lo hi = some (raw ++ tiles.flatMap Tile.text) := by
  induction h with
  | last h => rw [List.flatMap_nil, List.append_nil]; exact h
  | step hraw hwritten _ ih =>
    have hstart := size_of_slice? hraw
    have hstop := size_of_slice? hwritten
    rw [slice?_append, hstart]
    refine ⟨hraw, ?_⟩
    rw [List.flatMap_cons, Tile.text, List.append_assoc, slice?_append, hstop]
    exact ⟨hwritten, ih⟩

theorem composing (hR : Composing source R) (h : Tiled source lo hi raw tiles) :
    R lo hi (squeeze raw lo ++ tiles.flatMap Tile.squeezed) := by
  induction h with
  | last h => rw [List.flatMap_nil, List.append_nil]; exact hR.squeeze h
  | step hraw hwritten _ ih =>
    rw [List.flatMap_cons, Tile.squeezed, List.append_assoc]
    exact hR.append (hR.squeeze hraw) (hR.append (hR.copy hwritten) ih)

end Tiled

theorem RunFree.squeezeFrom_eq (held : Option Held) (offset : Nat) {t : Text}
    (h : RunFree (lexemes t)) :
    squeezeFrom held offset t = Held.write held ++ .copy offset t := by
  fun_induction squeezeFrom held offset t with
  | case1 held offset => exact (List.append_nil _).symm
  | case2 held offset c t l rest next hl run _ hspaces ih =>
    -- Two spaces in a row are what a text without a run does not have.
    rw [(Run.of_space hl next (rfl : run = _)).1, lexemes_cons] at hspaces
    rw [lexemes_cons] at h
    exact absurd hspaces (Nat.not_le_of_lt ((countP_row_space hl).2 (h.1 hl)))
  | case3 held offset c t l rest next hl run _ hspaces ih =>
    rw [lexemes_cons] at h
    have hcopy := copy_append offset l.text rest
    rw [show l.text ++ rest = c :: t from Lexeme.first_append c t] at hcopy
    rw [ih h.2, hcopy, List.append_assoc]
    rfl
  | case4 held offset c t l rest next hl ih =>
    rw [lexemes_cons] at h
    have hcopy := copy_append offset l.text rest
    rw [show l.text ++ rest = c :: t from Lexeme.first_append c t] at hcopy
    rw [ih h.2, hcopy]
    rfl

theorem RunFree.squeeze_eq {t : Text} (h : RunFree (lexemes t)) (offset : Nat) :
    squeeze t offset = .copy offset t :=
  h.squeezeFrom_eq none offset

/-- Where no piece of raw text holds a run, the tiles are written as they stand. -/
theorem Tiled.copy_eq {tiles : List Tile} (h : Tiled source lo hi raw tiles)
    (hfree : ∀ r ∈ raw :: tiles.map Tile.raw, RunFree (lexemes r)) :
    squeeze raw lo ++ tiles.flatMap Tile.squeezed =
      .copy lo (raw ++ tiles.flatMap Tile.text) := by
  induction h with
  | last => rw [(hfree _ List.mem_cons_self).squeeze_eq, List.flatMap_nil, List.flatMap_nil,
      List.append_nil, List.append_nil]
  | @step lo hi raw x tiles hraw hwritten _ ih =>
    rw [List.map_cons, List.forall_mem_cons] at hfree
    have hstart := size_of_slice? hraw
    have hstop := size_of_slice? hwritten
    have hrest := ih hfree.2
    rw [List.flatMap_cons, List.flatMap_cons, hfree.1.squeeze_eq, Tile.squeezed, Tile.text,
      List.append_assoc, List.append_assoc, hrest, copy_append lo raw, hstart,
      copy_append x.substitution.start x.written, hstop]

def marked (t : Text) : Text := mark :: (t ++ [mark])

variable {closeAt : Nat} {tiles : List Tile}

namespace Tiled

theorem slice?_marked {openAt : Nat} (hopen : source.charAt? openAt = some mark)
    (hclose : source.charAt? closeAt = some mark)
    (h : Tiled source (openAt + 1) closeAt raw tiles) :
    source.slice? openAt (closeAt + 1) = some (marked (raw ++ tiles.flatMap Tile.text)) := by
  have hmark : size [mark] = 1 := by decide
  have htext := h.slice?_text
  have hend := size_of_slice? htext
  refine (slice?_append (x := [mark])).2 ⟨?_, slice?_append.2 ⟨?_, ?_⟩⟩
  · rw [hmark]
    exact slice?_mark hopen
  · rw [hmark, hend]
    exact htext
  · rw [hmark, hend]
    exact slice?_mark hclose

theorem composing_marked {openAt : Nat} (hR : Composing source R)
    (hopen : source.charAt? openAt = some mark) (hclose : source.charAt? closeAt = some mark)
    (h : Tiled source (openAt + 1) closeAt raw tiles) :
    R openAt (closeAt + 1) (.kept mark openAt ::
      (squeeze raw (openAt + 1) ++ tiles.flatMap Tile.squeezed ++ [.kept mark closeAt])) := by
  have hfirst : R openAt (openAt + 1) [.kept mark openAt] := hR.copy (slice?_mark hopen)
  have hlast : R closeAt (closeAt + 1) [.kept mark closeAt] := hR.copy (slice?_mark hclose)
  exact hR.append hfirst (hR.append (h.composing hR) hlast)

theorem ofNode?_eq (hopen : source.charAt? t.start = some mark)
    (hclose : source.charAt? closeAt = some mark) (hstop : t.stop = closeAt + 1)
    (h : Tiled source (t.start + 1) closeAt raw tiles)
    (hns : tiles.map Tile.substitution = t.children.filter (·.kind = .substitution)) :
    ∃ l, Literal.ofNode? source t = some l ∧
      l.spans = tiles.mapIdx (fun i x ↦ x.span i tiles.length) ∧
      l.toSegment? source = some (.kept mark t.start ::
        (squeeze raw (t.start + 1) ++ tiles.flatMap Tile.squeezed ++ [.kept mark closeAt])) := by
  have hlt : t.start < closeAt := by
    have hsize := size_of_slice? h.slice?_text
    omega
  have hend : t.stop - 1 = closeAt := by omega
  have hspans := h.spansOf_eq 0 tiles.length
  have hsegment := h.segmentOfSpans_eq 0 tiles.length
  simp only [Nat.zero_add] at hspans hsegment
  refine ⟨⟨t.start, closeAt, squeeze raw (t.start + 1),
    tiles.mapIdx fun i x ↦ x.span i tiles.length⟩, ?_, rfl, ?_⟩
  · rw [Literal.ofNode?]
    simp only [hend, hlt, hopen, hclose, ← hns, h.slice?_raw, List.length_map, hspans]
    rfl
  · rw [Literal.toSegment?]
    simp only [hsegment]
    simp

end Tiled

theorem copy_marked {openAt : Nat} {m : Text}
    (h : source.slice? openAt (closeAt + 1) = some (marked m)) : Segment.copy openAt (marked m) =
      .kept mark openAt :: (Segment.copy (openAt + 1) m ++ [.kept mark closeAt]) := by
  have hmark : mark.utf8Size = 1 := by decide
  have hsize := size_of_slice? h
  rw [marked, size_cons, size_append, size_cons, size_nil, hmark] at hsize
  rw [marked, Segment.copy, copy_append, hmark, show openAt + 1 + m.size = closeAt by omega]
  rfl

theorem text_flatMap_squeezed (tiles : List Tile) :
    Segment.text (tiles.flatMap Tile.squeezed) =
      tiles.flatMap fun x ↦ x.written ++ (squeeze x.raw x.substitution.stop).text := by
  induction tiles with
  | nil => rfl
  | cons x tiles ih =>
    rw [List.flatMap_cons, List.flatMap_cons, text_append, ih, Tile.squeezed, text_append,
      text_copy]

theorem map_substitution_mapIdx (tiles : List Tile) (count : Nat) :
    (tiles.mapIdx fun i x ↦ x.span i count).map Span.substitution =
      tiles.map Tile.substitution := by
  apply List.ext_getElem?
  intro i
  simp only [List.getElem?_map, List.getElem?_mapIdx, Option.map_map]
  rfl

theorem place_mapIdx {i : Nat} {x : Span}
    (h : (tiles.mapIdx fun i x ↦ x.span i tiles.length)[i]? = some x) : x.place = .last ↔
      i + 1 = (tiles.mapIdx fun i x ↦ x.span i tiles.length).length := by
  rw [List.getElem?_mapIdx, Option.map_eq_some_iff] at h
  obtain ⟨y, -, rfl⟩ := h
  rw [List.length_mapIdx]
  simp only [Tile.span, SegmentPlace.ofIndex]
  split
  · next hlast => exact iff_of_true rfl hlast
  · next hlast => exact iff_of_false nofun hlast

/-- Raw text and substitutions tile a template between its marks, and its literal is written with
the same substitutions between the squeezed pieces, byte for byte from within the template. -/
theorem ofNode?_tiled (hopen : source.charAt? t.start = some mark)
    (hclose : source.charAt? closeAt = some mark) (hstop : t.stop = closeAt + 1)
    (ho : Node.Ordered (t.start + 1) closeAt (t.children.filter (·.kind = .substitution)))
    (hslices : ∀ n ∈ t.children, n.kind = .substitution →
      (source.slice? n.start n.stop).isSome) :
    ∃ l s raw tiles, Literal.ofNode? source t = some l ∧ l.toSegment? source = some s ∧
      Tiled source (t.start + 1) closeAt raw tiles ∧
      tiles.map Tile.substitution = t.children.filter (·.kind = .substitution) ∧
      source.slice? t.start t.stop =
        some (marked (raw ++ tiles.flatMap fun x ↦ x.written ++ x.raw)) ∧
      s.text = marked ((squeeze raw (t.start + 1)).text ++
        tiles.flatMap fun x ↦ x.written ++ (squeeze x.raw x.substitution.stop).text) ∧
      s.origins.length = s.text.size ∧ s.origins.Pairwise (· ≤ ·) ∧
      (∀ o ∈ s.origins, t.start ≤ o ∧ o ≤ closeAt) ∧
      l.spans.map Span.substitution = tiles.map Tile.substitution ∧
      (∀ i x, l.spans[i]? = some x → (x.place = .last ↔ i + 1 = l.spans.length)) ∧
      ((∀ r ∈ raw :: tiles.map Tile.raw, RunFree (lexemes r)) →
        source.slice? t.start t.stop = some s.text ∧
          s.origins = List.range' t.start (t.stop - t.start)) := by
  have hlo : source.IsBoundary (t.start + 1) := (isBoundary_of_slice? (slice?_mark hopen)).2
  have hhi : source.IsBoundary closeAt := isBoundary_of_charAt? hclose
  obtain ⟨raw, tiles, htiled, hns⟩ := exists_tiled hlo hhi ho fun n hn ↦
    hslices n (List.mem_of_mem_filter hn) (of_decide_eq_true (List.mem_filter.1 hn).2)
  obtain ⟨l, hl, hspans, hs⟩ := htiled.ofNode?_eq hopen hclose hstop hns
  have hslice := htiled.slice?_marked hopen hclose
  have hfaithful := htiled.composing_marked (Faithful.accounting source).composing hopen hclose
  have hinside := htiled.composing_marked (Inside.accounting source).composing hopen hclose
  refine ⟨l, _, raw, tiles, hl, hs, htiled, hns, ?_, ?_, length_origins _,
    hfaithful.sorted_origins, fun o ho ↦ ?_, ?_, ?_, fun hfree ↦ ?_⟩
  · rw [hstop]
    exact hslice
  · rw [text_cons, text_append, text_append, text_flatMap_squeezed]
    rfl
  · have := hinside.2 o ho
    omega
  · rw [hspans, map_substitution_mapIdx]
  · intro i x hx
    rw [hspans] at hx ⊢
    exact place_mapIdx hx
  · rw [htiled.copy_eq hfree, ← copy_marked hslice]
    have hsize := size_of_slice? hslice
    rw [text_copy, origins_copy, hstop, hslice, ← hsize, Nat.add_sub_cancel_left]
    exact ⟨rfl, rfl⟩

def adjacentText : Text := "=\x60\u00e9  $\x7bx\x7d$\x7by\x7d c\x60".toList

def nameSubstitution (start : Nat) : Node :=
  ⟨.substitution, start, start + 4, false, [⟨.token, start, start + 2, false, []⟩,
    ⟨.identifier, start + 2, start + 3, false, []⟩, ⟨.token, start + 3, start + 4, false, []⟩]⟩

def adjacentTemplate : Node :=
  ⟨.template, 1, 17, false, [⟨.token, 1, 2, false, []⟩, nameSubstitution 6, nameSubstitution 10,
    ⟨.token, 16, 17, false, []⟩]⟩

theorem ofNode?_tiled_adjacentText :
    adjacentText.charAt? 1 = some mark ∧ adjacentText.charAt? 16 = some mark ∧
    Node.Ordered 2 16 (adjacentTemplate.children.filter (·.kind = .substitution)) ∧
    (∀ n ∈ adjacentTemplate.children, n.kind = .substitution →
      (adjacentText.slice? n.start n.stop).isSome) ∧
    ∃ l s raw tiles, Literal.ofNode? adjacentText adjacentTemplate = some l ∧
      l.toSegment? adjacentText = some s ∧ Tiled adjacentText 2 16 raw tiles ∧
      s.text = marked ((squeeze raw 2).text ++
        tiles.flatMap fun x ↦ x.written ++ (squeeze x.raw x.substitution.stop).text) ∧
      s.text = "\x60\u00e9$\x7bx\x7d$\x7by\x7d c\x60".toList ∧ s.origins.Pairwise (· ≤ ·) := by
  have hopen : adjacentText.charAt? 1 = some mark := by decide
  have hclose : adjacentText.charAt? 16 = some mark := by decide
  have ho : Node.Ordered 2 16 (adjacentTemplate.children.filter (·.kind = .substitution)) := by
    decide
  have hslices : ∀ n ∈ adjacentTemplate.children, n.kind = .substitution →
      (adjacentText.slice? n.start n.stop).isSome := by decide
  obtain ⟨l, s, raw, tiles, hl, hs, htiled, -, -, htext, -, hsorted, -⟩ :=
    ofNode?_tiled (t := adjacentTemplate) hopen hclose rfl ho hslices
  have hwritten : ((Literal.ofNode? adjacentText adjacentTemplate).bind
      (·.toSegment? adjacentText)).map Segment.text =
        some "\x60\u00e9$\x7bx\x7d$\x7by\x7d c\x60".toList := by cbv
  rw [hl, Option.bind_some, hs] at hwritten
  exact ⟨hopen, hclose, ho, hslices, l, s, raw, tiles, hl, hs, htiled, htext,
    Option.some.inj hwritten, hsorted⟩

end TemplateSqueeze.Template
