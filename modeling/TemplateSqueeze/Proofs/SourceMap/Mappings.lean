import TemplateSqueeze.Proofs.SourceMap.Lookup
import TemplateSqueeze.Proofs.SourceMap.Vlq

namespace TemplateSqueeze.SourceMap

variable {tables : Tables} {w : Writer} {t : Token} {ts : List Token} {p : Place}
  {line column : Nat} {s : Text}

/-- A token as maps can hold it: of 32 bits, and with a place only in a file. -/
structure Token.Writable (t : Token) : Prop where
  notRanged : t.ranged = false
  column : t.position.column < wordSize
  placed : t.place = .nowhere ∨
    t.place.source.isSome ∧ t.place.line < wordSize ∧ t.place.column < wordSize

namespace Interned

variable {table : Interned}

theorem strings_add : table.strings.toList <+: (table.add s).2.strings.toList := by
  unfold add
  split
  · exact List.prefix_refl _
  · rw [Array.toList_push]
    exact List.prefix_append _ _

theorem getElem?_add : (table.add s).2.strings[(table.add s).1]? = some s := by
  unfold add
  split
  · next i hi =>
    obtain ⟨hlt, hs, -⟩ := Array.findIdx?_eq_some_iff_getElem.1 hi
    simp only
    rw [Array.getElem?_eq_getElem hlt, eq_of_beq hs]
  · simp

theorem getElem?_add_of_prefix {strings : Array Text}
    (h : (table.add s).2.strings.toList <+: strings.toList) :
    strings[(table.add s).1]? = some s := by
  have hs : (table.add s).2.strings[(table.add s).1]? = some s := getElem?_add
  obtain ⟨rest, hrest⟩ := h
  rw [← Array.getElem?_toList] at hs ⊢
  rw [← hrest, List.getElem?_append_left (List.getElem?_eq_some_iff.1 hs).1, hs]

theorem size_add_le : (table.add s).2.strings.size ≤ table.strings.size + 1 := by
  unfold add
  split
  · exact Nat.le_succ _
  · rw [Array.size_push]

end Interned

namespace Cursor

structure Fits (c : Cursor) : Prop where
  source : c.source < wordSize
  line : c.line < wordSize
  column : c.column < wordSize
  name : c.name < wordSize

theorem fits_start : ({} : Cursor).Fits := ⟨by decide, by decide, by decide, by decide⟩

theorem advance_sub {a b : Nat} (hb : b < wordSize) : advance a ((b : Int) - a) = b := by
  have h : (a : Int) + (b - a) = b := by omega
  rw [advance, wrap, h, Int.emod_eq_of_lt (Int.natCast_nonneg b) (Int.ofNat_lt.2 hb)]
  exact Int.toNat_natCast b

theorem natAbs_sub_le {a b : Nat} (ha : a < wordSize) (hb : b < wordSize) :
    ((b : Int) - a).natAbs ≤ wordSize := by omega

end Cursor

/-- Tables of up to `2 ^ 32` entries that begin with all that the writer has listed so far. -/
structure Writer.Within (w : Writer) (tables : Tables) : Prop where
  sources : w.sources.strings.toList <+: tables.sources.toList
  names : w.names.strings.toList <+: tables.names.toList
  sourceCount : tables.sources.size ≤ wordSize
  nameCount : tables.names.size ≤ wordSize

namespace Writer

theorem exists_placeFields (hp : p = .nowhere ∨
      p.source.isSome ∧ p.line < wordSize ∧ p.column < wordSize)
    (hc : w.cursor.Fits) (hw : (w.placeFields p).2.Within tables) :
    ∃ fields : List Int, (w.placeFields p).1 = fields.flatMap Vlq.encode ∧
      (∀ i ∈ fields, i.natAbs ≤ wordSize) ∧
      tables.place w.cursor fields = .ok (p, (w.placeFields p).2.cursor) ∧
      (w.placeFields p).2.cursor.Fits := by
  rcases hp with rfl | ⟨hsource, hline, hcolumn⟩
  · exact ⟨[], rfl, nofun, rfl, hc⟩
  · obtain ⟨line, column, source, name⟩ := p
    obtain ⟨source, rfl⟩ := Option.isSome_iff_exists.1 hsource
    simp only at hline hcolumn
    have hsources : (w.sources.add source).2.strings.toList <+: tables.sources.toList := by
      cases name <;> exact hw.sources
    have hs := Interned.getElem?_add_of_prefix hsources
    have hindex : (w.sources.add source).1 < wordSize :=
      Nat.lt_of_lt_of_le (Array.getElem?_eq_some_iff.1 hs).1 hw.sourceCount
    have hdiff := Cursor.natAbs_sub_le hc.source hindex
    have hdiffLine := Cursor.natAbs_sub_le hc.line hline
    have hdiffColumn := Cursor.natAbs_sub_le hc.column hcolumn
    -- Both ends of a difference are below a word's size, so it keeps to that as well.
    cases name with
    | none =>
      refine ⟨[((w.sources.add source).1 : Int) - w.cursor.source, (line : Int) - w.cursor.line,
        (column : Int) - w.cursor.column], by simp [placeFields, difference], ?_, ?_,
        ⟨hindex, hline, hcolumn, hc.name⟩⟩
      · simp only [List.forall_mem_cons]
        exact ⟨hdiff, hdiffLine, hdiffColumn, nofun⟩
      · simp only [Tables.place, Cursor.advance_sub hindex, Cursor.advance_sub hline,
          Cursor.advance_sub hcolumn, hs]
        rfl
    | some name =>
      have hn := Interned.getElem?_add_of_prefix hw.names
      have hname : (w.names.add name).1 < wordSize :=
        Nat.lt_of_lt_of_le (Array.getElem?_eq_some_iff.1 hn).1 hw.nameCount
      refine ⟨[((w.sources.add source).1 : Int) - w.cursor.source, (line : Int) - w.cursor.line,
        (column : Int) - w.cursor.column, ((w.names.add name).1 : Int) - w.cursor.name],
        by simp [placeFields, difference], ?_, ?_, ⟨hindex, hline, hcolumn, hname⟩⟩
      · simp only [List.forall_mem_cons]
        exact ⟨hdiff, hdiffLine, hdiffColumn, Cursor.natAbs_sub_le hc.name hname, nofun⟩
      · simp only [Tables.place, Cursor.advance_sub hindex, Cursor.advance_sub hline,
          Cursor.advance_sub hcolumn, Cursor.advance_sub hname, hs, hn]
        rfl

def segment (w : Writer) (t : Token) : Text :=
  difference t.position.column
      (if t.position.line = w.position.line then w.position.column else 0) ++
    (w.placeFields t.place).1

def after (w : Writer) (t : Token) : Writer :=
  { (w.placeFields t.place).2 with position := t.position, started := true }

def rows (w : Writer) : List Token → List Text × List (List Text)
  | [] => ([], [])
  | t :: ts =>
    let (row, more) := (w.after t).rows ts
    if t.position.line = w.position.line then (w.segment t :: row, more)
    else ([], List.replicate (t.position.line - w.position.line - 1) [] ++
      (w.segment t :: row) :: more)

theorem tokens_cons : (w.tokens (t :: ts)).2 = ((w.after t).tokens ts).2 := rfl

def commas (row : List Text) : Text := [','].intercalate row

theorem intercalate_cons (c : Char) (s : Text) (more : List Text) :
    [c].intercalate (s :: more) = s ++ more.flatMap (c :: ·) := by
  induction more generalizing s with
  | nil => simp
  | cons r more ih =>
    rw [List.intercalate_cons_cons, ih, List.flatMap_cons]
    simp

theorem commas_cons (s : Text) (row : List Text) :
    commas (s :: row) = s ++ row.flatMap (',' :: ·) := intercalate_cons ',' s row

theorem flatMap_replicate_nil (n : Nat) :
    (List.replicate n ([] : List Text)).flatMap (';' :: commas ·) = List.replicate n ';' := by
  induction n with
  | zero => rfl
  | succ n ih => simpa [List.replicate_succ, commas] using ih

theorem tokens_eq (hlines : (w.position.line :: ts.map (·.position.line)).Pairwise (· ≤ ·)) :
    (w.tokens ts).1 =
      (if w.started then (w.rows ts).1.flatMap (',' :: ·) else commas (w.rows ts).1) ++
        (w.rows ts).2.flatMap (';' :: commas ·) := by
  induction ts generalizing w with
  | nil => cases w.started <;> rfl
  | cons t ts ih =>
    obtain ⟨hle, hpairs⟩ := List.pairwise_cons.1 hlines
    have hrest : ((w.after t).tokens ts).1 = ((w.after t).rows ts).1.flatMap (',' :: ·) ++
        ((w.after t).rows ts).2.flatMap (';' :: commas ·) := ih hpairs
    have htoken : (w.tokens (t :: ts)).1 =
        (if t.position.line = w.position.line then (if w.started then [','] else [])
          else List.replicate (t.position.line - w.position.line) ';') ++ w.segment t ++
        ((w.after t).tokens ts).1 := by
      simp only [tokens, token, segment, after, List.append_assoc]
    rw [htoken, hrest]
    by_cases hline : t.position.line = w.position.line
    · simp only [rows, if_pos hline]
      cases w.started
      · simp [commas_cons]
      · simp
    · have hlt : t.position.line - w.position.line = t.position.line - w.position.line - 1 + 1 := by
        have hle' : w.position.line ≤ t.position.line := hle _ List.mem_cons_self
        omega
      simp only [rows, if_neg hline, List.flatMap_append, flatMap_replicate_nil,
        List.flatMap_cons, commas_cons]
      rw [hlt, List.replicate_succ']
      cases w.started <;> simp [commas]

theorem segment_ne_nil (w : Writer) (t : Token) : w.segment t ≠ [] := by
  rw [segment, difference, Vlq.encode]
  exact List.append_ne_nil_of_left_ne_nil (Vlq.encodeNat_ne_nil _) _

/-- A reader at the writer's cursor takes a segment for the token it was written for. -/
theorem segments_segment {more : List Text} {rest : List Token} {last : Cursor} (ht : t.Writable)
    (hc : w.cursor.Fits) (hcolumn : w.position.column < wordSize)
    (hw : (w.after t).Within tables)
    (hrest : tables.segments t.position.line [] (w.after t).cursor t.position.column more =
      .ok (rest, last)) :
    tables.segments t.position.line [] w.cursor
        (if t.position.line = w.position.line then w.position.column else 0)
        (w.segment t :: more) =
      .ok (t :: rest, last) := by
  have hbase : (if t.position.line = w.position.line then w.position.column else 0) < wordSize := by
    split
    · exact hcolumn
    · decide
  obtain ⟨fields, hfields, hsmall, hplace, -⟩ :=
    exists_placeFields ht.placed hc ⟨hw.sources, hw.names, hw.sourceCount, hw.nameCount⟩
  generalize hb : (if t.position.line = w.position.line then w.position.column else 0) = base at *
  have hdecode : Vlq.decode (Text.bytes (w.segment t)) =
      .ok (((t.position.column : Int) - base) :: fields) := by
    have hall : ∀ i ∈ ((t.position.column : Int) - base) :: fields, i.natAbs ≤ wordSize :=
      List.forall_mem_cons.2 ⟨Cursor.natAbs_sub_le hbase ht.column, hsmall⟩
    rw [segment, hb, hfields, difference]
    exact Vlq.decode_flatMap_encode hall
  have hnext : (w.placeFields t.place).2.cursor = (w.after t).cursor := rfl
  rw [Tables.segments, if_neg (segment_ne_nil w t), hdecode]
  simp only [bind, Except.bind, Cursor.advance_sub ht.column, hplace, hnext, List.tail_nil, hrest,
    List.headD_nil]
  rw [← ht.notRanged]

theorem Within.of_placeFields (h : (w.placeFields p).2.Within tables) : w.Within tables := by
  obtain ⟨hsources, hnames, hsourceCount, hnameCount⟩ := h
  refine ⟨?_, ?_, hsourceCount, hnameCount⟩
  · refine .trans ?_ hsources
    obtain ⟨line, column, _ | source, _ | name⟩ := p
    · exact List.prefix_refl _
    · exact List.prefix_refl _
    · exact Interned.strings_add
    · exact Interned.strings_add
  · refine .trans ?_ hnames
    obtain ⟨line, column, _ | source, _ | name⟩ := p
    · exact List.prefix_refl _
    · exact Interned.strings_add
    · exact List.prefix_refl _
    · exact Interned.strings_add

theorem Within.of_tokens (h : (w.tokens ts).2.Within tables) : w.Within tables := by
  induction ts generalizing w with
  | nil => exact h
  | cons t ts ih =>
    obtain ⟨hsources, hnames, hsourceCount, hnameCount⟩ := ih (w := w.after t) h
    exact .of_placeFields (p := t.place) ⟨hsources, hnames, hsourceCount, hnameCount⟩

theorem ne_of_mem_segment : ∀ c ∈ w.segment t, c ≠ ',' ∧ c ≠ ';' := by
  intro c hc
  obtain ⟨position, ⟨line, column, source, name⟩, ranged⟩ := t
  simp only [segment, placeFields, difference, List.mem_append] at hc
  rcases hc with hc | hc
  · exact Vlq.ne_of_mem_encode c hc
  · cases source <;> cases name <;> simp only [List.mem_append, List.not_mem_nil] at hc
    · rcases hc with (hc | hc) | hc <;> exact Vlq.ne_of_mem_encode c hc
    · rcases hc with ((hc | hc) | hc) | hc <;> exact Vlq.ne_of_mem_encode c hc

theorem exists_of_mem_rows : ∀ row ∈ (w.rows ts).1 :: (w.rows ts).2, ∀ s ∈ row,
    ∃ w' t, s = segment w' t := by
  induction ts generalizing w with
  | nil =>
    intro row hrow s hs
    obtain rfl := List.mem_singleton.1 hrow
    cases hs
  | cons t ts ih =>
    have hfirst : ∀ s ∈ w.segment t :: ((w.after t).rows ts).1, ∃ w' t, s = segment w' t :=
      List.forall_mem_cons.2 ⟨⟨w, t, rfl⟩, ih _ List.mem_cons_self⟩
    intro row hrow
    by_cases hline : t.position.line = w.position.line
    · simp only [rows, if_pos hline] at hrow
      rcases List.mem_cons.1 hrow with rfl | hrow
      · exact hfirst
      · exact ih row (List.mem_cons_of_mem _ hrow)
    · simp only [rows, if_neg hline] at hrow
      rcases List.mem_cons.1 hrow with rfl | hrow
      · exact nofun
      rcases List.mem_append.1 hrow with hrow | hrow
      · rw [List.eq_of_mem_replicate hrow]
        exact nofun
      rcases List.mem_cons.1 hrow with rfl | hrow
      · exact hfirst
      · exact ih row (List.mem_cons_of_mem _ hrow)

theorem splitOn_commas {row : List Text} (hne : row ≠ [])
    (h : ∀ s ∈ row, ∃ w t, s = segment w t) : (commas row).splitOn ',' = row := by
  refine List.splitOn_intercalate ',' (fun s hs hc ↦ ?_) hne
  obtain ⟨w, t, rfl⟩ := h s hs
  exact (ne_of_mem_segment _ hc).1 rfl

theorem not_mem_commas {row : List Text} (h : ∀ s ∈ row, ∃ w t, s = segment w t) :
    ';' ∉ commas row := by
  cases row with
  | nil => exact nofun
  | cons s row =>
    have hne : ∀ r ∈ s :: row, ';' ∉ r := by
      intro r hr hc
      obtain ⟨w, t, rfl⟩ := h r hr
      exact (ne_of_mem_segment _ hc).2 rfl
    rw [commas_cons, List.mem_append, List.mem_flatMap]
    rintro (hc | ⟨r, hr, hc⟩)
    · exact hne s List.mem_cons_self hc
    · rcases List.mem_cons.1 hc with hc | hc
      · cases hc
      · exact hne r (List.mem_cons_of_mem s hr) hc

theorem lines_replicate (n : Nat) {at_ : Cursor} {groups : List Text} :
    tables.lines line at_ (List.replicate n [] ++ groups) [] =
      tables.lines (line + n) at_ groups [] := by
  induction n generalizing line with
  | zero => rfl
  | succ n ih =>
    rw [List.replicate_succ, List.cons_append, Tables.lines, if_pos rfl, List.tail_nil, ih]
    congr 1
    omega

theorem lines_commas {at_ next : Cursor} {groups ranges row : List Text} {first rest : List Token}
    (h : ∀ s ∈ row, ∃ w t, s = segment w t) (hranges : ranges.headD [] = [])
    (hfirst : tables.segments line [] at_ 0 row = .ok (first, next))
    (hrest : tables.lines (line + 1) next groups ranges.tail = .ok rest) :
    tables.lines line at_ (commas row :: groups) ranges = .ok (first ++ rest) := by
  have hflags : rangeFlags (Text.bytes (ranges.headD [])) = .ok [] := by
    rw [hranges]
    rfl
  cases row with
  | nil =>
    cases hfirst
    exact hrest
  | cons s row =>
    obtain ⟨w, t, rfl⟩ := h s List.mem_cons_self
    have hne : commas (w.segment t :: row) ≠ [] := by
      rw [commas_cons]
      exact List.append_ne_nil_of_left_ne_nil (segment_ne_nil w t) _
    rw [Tables.lines, if_neg hne, hflags, splitOn_commas (List.cons_ne_nil _ _) h]
    simp only [bind, Except.bind, hfirst, hrest]

/-- A reader at the writer's cursor takes the rows for the tokens they were written for. -/
theorem exists_lines_rows (hts : ∀ t ∈ ts, t.Writable)
    (hlines : (w.position.line :: ts.map (·.position.line)).Pairwise (· ≤ ·))
    (hc : w.cursor.Fits) (hcolumn : w.position.column < wordSize)
    (hw : (w.tokens ts).2.Within tables) :
    ∃ row more next,
      tables.segments w.position.line [] w.cursor w.position.column (w.rows ts).1 =
        .ok (row, next) ∧
      tables.lines (w.position.line + 1) next ((w.rows ts).2.map commas) [] = .ok more ∧
      row ++ more = ts := by
  induction ts generalizing w with
  | nil => exact ⟨[], [], w.cursor, rfl, rfl, rfl⟩
  | cons t ts ih =>
    obtain ⟨ht, hts⟩ := List.forall_mem_cons.1 hts
    obtain ⟨hle, hpairs⟩ := List.pairwise_cons.1 hlines
    rw [tokens_cons] at hw
    have hafter := hw.of_tokens
    obtain ⟨fields, -, -, -, hfits⟩ := exists_placeFields ht.placed hc
      ⟨hafter.sources, hafter.names, hafter.sourceCount, hafter.nameCount⟩
    obtain ⟨row, more, next, hrow, hmore, heq⟩ := ih (w := w.after t) hts hpairs hfits ht.column hw
    have hfirst := segments_segment ht hc hcolumn hafter hrow
    by_cases hline : t.position.line = w.position.line
    · simp only [rows, if_pos hline]
      rw [if_pos hline, hline] at hfirst
      rw [show (w.after t).position.line = w.position.line from hline] at hmore
      exact ⟨t :: row, more, next, hfirst, hmore, congrArg (t :: ·) heq⟩
    · -- The row is empty: the token stands on a later line, with empty lines in between.
      simp only [rows, if_neg hline, List.map_append, List.map_replicate, List.map_cons]
      rw [if_neg hline] at hfirst
      refine ⟨[], t :: ts, w.cursor, rfl, ?_, rfl⟩
      have hle' : w.position.line ≤ t.position.line := hle _ List.mem_cons_self
      have hline' : w.position.line + 1 + (t.position.line - w.position.line - 1) =
          t.position.line := by omega
      have hsegments : ∀ s ∈ w.segment t :: ((w.after t).rows ts).1, ∃ w t, s = segment w t :=
        List.forall_mem_cons.2 ⟨⟨w, t, rfl⟩, exists_of_mem_rows _ List.mem_cons_self⟩
      have hnil : commas [] = [] := rfl
      have hranges : List.headD [] [] = ([] : Text) := rfl
      rw [hnil, lines_replicate, hline', lines_commas hsegments hranges hfirst hmore,
        List.cons_append, heq]

end Writer

theorem tokens_tokens {sources : Interned} (hts : ∀ t ∈ ts, t.Writable)
    (hlines : (ts.map (·.position.line)).Pairwise (· ≤ ·))
    (hw : (Writer.tokens { sources } ts).2.Within tables) :
    tables.tokens (Writer.tokens { sources } ts).1 [] = .ok ts := by
  have hlines' : (0 :: ts.map (·.position.line)).Pairwise (· ≤ ·) :=
    List.pairwise_cons.2 ⟨fun n _ ↦ Nat.zero_le n, hlines⟩
  obtain ⟨row, more, next, hrow, hmore, heq⟩ :=
    Writer.exists_lines_rows hts hlines' Cursor.fits_start (Nat.zero_lt_succ _) hw
  have htext := Writer.tokens_eq (w := { sources }) hlines'
  have hsegments : ∀ row ∈ (Writer.rows { sources } ts).1 :: (Writer.rows { sources } ts).2,
      ∀ s ∈ row, ∃ w t, s = Writer.segment w t := Writer.exists_of_mem_rows
  generalize Writer.rows { sources } ts = rows at hrow hmore htext hsegments
  obtain ⟨first, behind⟩ := rows
  have hcommas : (Writer.tokens { sources } ts).1 =
      [';'].intercalate ((first :: behind).map Writer.commas) := by
    rw [htext, List.map_cons, Writer.intercalate_cons, List.flatMap_map]
    rfl
  have hnot : ∀ group ∈ (first :: behind).map Writer.commas, ';' ∉ group := by
    intro group hgroup
    obtain ⟨row, hrow, rfl⟩ := List.mem_map.1 hgroup
    exact Writer.not_mem_commas (hsegments row hrow)
  rw [Tables.tokens, hcommas, List.splitOn_intercalate ';' hnot (List.cons_ne_nil _ _),
    List.splitOn_nil, List.map_cons,
    Writer.lines_commas (hsegments first List.mem_cons_self) rfl hrow hmore, heq]

end TemplateSqueeze.SourceMap
