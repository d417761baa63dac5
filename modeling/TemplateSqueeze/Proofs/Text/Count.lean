import TemplateSqueeze.Proofs.Text.Caret

namespace TemplateSqueeze

namespace Text

variable {t p l q c a b : Text} {m n k : Nat}

theorem feed_mem_utf8EncodeChar (c : Char) : 0x0A ∈ String.utf8EncodeChar c ↔ c = '\n' := by
  have hfeed : c = '\n' ↔ c.val.toNat = 10 := (Char.toNat_inj (c := c) (d := '\n')).symm
  have hten (k : Nat) : 0x0A = UInt8.ofNat k ↔ k % 256 = 10 := by
    rw [← UInt8.toNat_inj, UInt8.toNat_ofNat', eq_comm]
    rfl
  unfold String.utf8EncodeChar
  simp only [hfeed]
  -- Only a byte that is a whole character can be this small.
  split
  · simp only [List.mem_singleton, hten]
    omega
  · split
    · simp only [List.mem_cons, List.not_mem_nil, or_false, hten]
      omega
    · split
      · simp only [List.mem_cons, List.not_mem_nil, or_false, hten]
        omega
      · simp only [List.mem_cons, List.not_mem_nil, or_false, hten]
        omega

theorem count_bytes (t : Text) : t.bytes.count 0x0A = t.count '\n' := by
  induction t with
  | nil => rfl
  | cons c t ih =>
    have hbytes : bytes (c :: t) = String.utf8EncodeChar c ++ bytes t := rfl
    have hc : (String.utf8EncodeChar c).count 0x0A = if c = '\n' then 1 else 0 := by
      split
      · next hfeed =>
        subst hfeed
        decide
      · next hfeed => exact List.count_eq_zero.2 (mt (feed_mem_utf8EncodeChar c).1 hfeed)
    rw [hbytes, List.count_append, ih, hc, List.count_cons, Nat.add_comm]
    simp

theorem fitting_weigh_add (weight : Char → Nat) (a b : Text) (k : Nat) :
    fitting weight (weigh weight a + k) (a ++ b) = a ++ fitting weight k b := by
  induction a with
  | nil => rw [weigh, Nat.zero_add]; rfl
  | cons c a ih =>
    rw [List.cons_append, fitting, weigh, if_pos (by omega), Nat.add_assoc,
      Nat.add_sub_cancel_left, ih, List.cons_append]

theorem fitting_append_of_le (h : k ≤ a.size) :
    fitting Char.utf8Size k (a ++ b) = fitting Char.utf8Size k a := by
  induction a generalizing k with
  | nil =>
    obtain rfl := Nat.le_zero.1 h
    cases b with
    | nil => rfl
    | cons c b => exact if_neg (Nat.not_le_of_lt c.utf8Size_pos)
  | cons c a ih =>
    rw [size_cons] at h
    rw [List.cons_append, fitting, fitting, ih (by omega)]

theorem isGreatest_fitting (t : Text) (n : Nat) :
    IsGreatest {b | t.IsBoundary b ∧ b ≤ n} (size (fitting Char.utf8Size n t)) := by
  obtain ⟨r, hr, hle, hlt⟩ := fitting_spec Char.utf8Size n t
  generalize fitting Char.utf8Size n t = f at *
  rw [weigh_utf8Size] at hle hlt
  refine ⟨⟨⟨f, r, hr, rfl⟩, hle⟩, ?_⟩
  rintro b ⟨⟨a, s, ha, rfl⟩, hb⟩
  by_contra hf
  obtain ⟨d, rfl, hd⟩ := exists_between (hr.symm.trans ha) (by omega)
  cases d with
  | nil => simp at hf
  | cons c d =>
    have hover := hlt c (d ++ s) hd
    simp only [size_append, size_cons] at hb
    omega

theorem fitting_content (ht : t = p ++ c ++ q) (hn : p.size ≤ n) :
    fitting Char.utf8Size (min n (p.size + c.size)) t =
      p ++ fitting Char.utf8Size (min (n - p.size) c.size) c := by
  have hmin : min n (p.size + c.size) = weigh Char.utf8Size p + min (n - p.size) c.size := by
    rw [weigh_utf8Size]
    omega
  rw [ht, hmin, List.append_assoc, fitting_weigh_add, fitting_append_of_le (Nat.min_le_right _ _)]

/-- The line that an offset counts to: the one it lies on, or the last if it lies behind all. -/
structure IsLineOf (t : Text) (n : Nat) (p l q : Text) : Prop where
  isLine : IsLine t p l q
  start_le : p.size ≤ n
  le_end : q = [] ∨ n ≤ p.size + l.size

theorem exists_isLineOf (t : Text) (n : Nat) :
    ∃ p l q, IsLineOf t n p l q ∧ p.count '\n' = (LineTable.ofText t).lineAt n := by
  obtain ⟨p, l, q, h, hp, hle, hnext⟩ := LineTable.lineAt_spec t n
  refine ⟨p, l, q, ⟨h, hle, ?_⟩, hp⟩
  rcases h.ends with rfl | ⟨r, rfl⟩
  · exact .inl rfl
  · obtain ⟨l', q', rfl, hl', hq'⟩ := exists_firstLine r
    have hbehind : IsLine t (p ++ l ++ ['\n']) l' q' :=
      ⟨by simp [h.eq], .inr ⟨p ++ l, rfl⟩, hl', hq'⟩
    have hlt := hnext _ l' q' hbehind (by simp [count_feed_eq_zero h.noFeed])
    have hfeed : Char.utf8Size '\n' = 1 := by decide
    simp only [size_append, size_cons, size_nil, hfeed] at hlt
    exact .inr (by omega)

theorem IsLineOf.count_take (h : IsLineOf t n p l q) :
    (t.bytes.take n).count 0x0A = p.count '\n' := by
  have hbytes : t.bytes.take n = p.bytes ++ l.bytes.take (n - p.size) := by
    have hp := h.start_le
    rw [h.isLine.eq_append, bytes_append, bytes_append, List.take_append, length_bytes,
      List.take_of_length_le (by rwa [length_bytes])]
    rcases h.le_end with rfl | hle
    · exact congrArg (p.bytes ++ List.take _ ·) (List.append_nil l.bytes)
    · rw [List.take_append_of_le_length (by rw [length_bytes]; omega)]
  have hl : (l.bytes.take (n - p.size)).count 0x0A = 0 := by
    have hle := (List.take_sublist (n - p.size) l.bytes).count_le 0x0A
    rw [count_bytes, count_feed_eq_zero h.isLine.noFeed] at hle
    exact Nat.le_zero.1 hle
  rw [hbytes, List.count_append, count_bytes, hl, Nat.add_zero]

/-- The piece that the column of an offset counts. It starts with the offset's line and ends at the
last boundary that is behind neither the offset nor what shows in that line. -/
structure IsCounted (t : Text) (n : Nat) (before content counted : Text) : Prop where
  isContent : ∃ after, IsContent t before content after
  line : before.count '\n' = (t.bytes.take n).count 0x0A
  isGreatest : IsGreatest {b | t.IsBoundary b ∧ b ≤ min n (before.size + content.size)}
    (before.size + counted.size)
  slice : t.slice? before.size (before.size + counted.size) = some counted

theorem IsLineOf.isCounted (h : IsLineOf t n p l q) : IsCounted t n p (Line.withoutReturn l)
    (fitting Char.utf8Size (min (n - p.size) (Line.withoutReturn l).size)
      (Line.withoutReturn l)) := by
  obtain ⟨r, -, hc⟩ := h.isLine.isContent
  generalize Line.withoutReturn l = c at *
  have hcut := isGreatest_fitting t (min n (p.size + c.size))
  rw [fitting_content hc.eq h.start_le, size_append] at hcut
  obtain ⟨s, hs, -⟩ := fitting_spec Char.utf8Size (min (n - p.size) c.size) c
  refine ⟨⟨_, hc⟩, h.count_take.symm, hcut, slice?_eq_some.2 ⟨p, s ++ (r ++ q), ?_, rfl, rfl⟩⟩
  rw [List.append_assoc, ← List.append_assoc _ s, ← hs, ← List.append_assoc]
  exact hc.eq

namespace IsCounted

variable {u u' : Text}

theorem append_of_le (h : IsCounted t n p c u) (h' : IsCounted t m p c u')
    (hle : ∀ b, t.IsBoundary b → b ≤ n → b ≤ m) : ∃ d : Text, u' = u ++ d := by
  obtain ⟨a, r, ha, hp, -⟩ := slice?_eq_some.1 h.slice
  obtain ⟨a', r', ha', hp', -⟩ := slice?_eq_some.1 h'.slice
  have hsize : p.size + u.size ≤ p.size + u'.size := by
    have hu := h.isGreatest.1
    apply h'.isGreatest.2
    exact ⟨hu.1, Nat.le_min.2 ⟨hle _ hu.1 (Nat.le_trans hu.2 (Nat.min_le_left _ _)),
      Nat.le_trans hu.2 (Nat.min_le_right _ _)⟩⟩
  rw [ha, List.append_assoc, List.append_assoc] at ha'
  obtain ⟨rfl, hrest⟩ := cut_unique ha' (hp.trans hp'.symm)
  obtain ⟨d, hd, -⟩ := exists_between hrest (Nat.le_of_add_le_add_left hsize)
  exact ⟨d, hd⟩

theorem eq_of_iff (h : IsCounted t n p c u) (h' : IsCounted t m p c u')
    (hiff : ∀ b, t.IsBoundary b → (b ≤ n ↔ b ≤ m)) : u = u' := by
  obtain ⟨d, rfl⟩ := h.append_of_le h' fun b hb ↦ (hiff b hb).1
  obtain ⟨e, he⟩ := h'.append_of_le h fun b hb ↦ (hiff b hb).2
  rw [List.append_assoc, List.self_eq_append_right, List.append_eq_nil_iff] at he
  rw [he.1, List.append_nil]

end IsCounted

end Text

namespace LineTable

open Text

variable {t p l q : Text} {m n : Nat}

theorem lineAt_eq_count (t : Text) (n : Nat) :
    (ofText t).lineAt n = (t.bytes.take n).count 0x0A := by
  obtain ⟨p, l, q, h, hp⟩ := exists_isLineOf t n
  rw [← hp, h.count_take]

theorem getElem?_lineAt_of_isLineOf (h : IsLineOf t n p l q) :
    (ofText t).lines[(ofText t).lineAt n]? = some (.ofText p.size l) := by
  rw [lineAt_eq_count, h.count_take, getElem?_lines h.isLine]

theorem positionOf_of_isLineOf (h : IsLineOf t n p l q) :
    (ofText t).positionOf n = ⟨(t.bytes.take n).count 0x0A,
      units (fitting Char.utf8Size (min (n - p.size) (Line.withoutReturn l).size)
        (Line.withoutReturn l))⟩ := by
  rw [positionOf, getElem?_lineAt_of_isLineOf h, lineAt_eq_count]
  exact congrArg _ (Line.columnAt_eq_fitting (.ofText p.size l) n)

theorem exists_isCounted (t : Text) (n : Nat) : ∃ p c u l, IsCounted t n p c u ∧
    (ofText t).lines[(ofText t).lineAt n]? = some l ∧ l.start = p.size ∧ l.content = c ∧
    (ofText t).positionOf n = ⟨(t.bytes.take n).count 0x0A, units u⟩ := by
  obtain ⟨p, l, q, h, -⟩ := exists_isLineOf t n
  exact ⟨p, _, _, _, h.isCounted, getElem?_lineAt_of_isLineOf h, rfl, rfl,
    positionOf_of_isLineOf h⟩

theorem positionOf_fitting (t : Text) (n : Nat) :
    (ofText t).positionOf (size (fitting Char.utf8Size n t)) = (ofText t).positionOf n := by
  obtain ⟨⟨hb, hle⟩, hgreatest⟩ := isGreatest_fitting t n
  obtain ⟨p, l, q, h, -⟩ := exists_isLineOf t n
  have hp : t.IsBoundary p.size := ⟨p, l ++ q, h.isLine.eq_append, rfl⟩
  have h' : IsLineOf t (size (fitting Char.utf8Size n t)) p l q :=
    ⟨h.isLine, hgreatest ⟨hp, h.start_le⟩, h.le_end.imp_right (Nat.le_trans hle)⟩
  rw [positionOf_of_isLineOf h, positionOf_of_isLineOf h', h.count_take, h'.count_take]
  congr 2
  apply h'.isCounted.eq_of_iff h.isCounted
  intro b hb
  exact ⟨fun hbn ↦ Nat.le_trans hbn hle, fun hbn ↦ hgreatest ⟨hb, hbn⟩⟩

theorem not_precedes_positionOf (t : Text) (h : m ≤ n) :
    ¬ ((ofText t).positionOf n).precedes ((ofText t).positionOf m) := by
  have hm := isGreatest_fitting t m
  have hn := isGreatest_fitting t n
  -- Rounded down to boundaries the offsets keep their order.
  rw [← positionOf_fitting t m, ← positionOf_fitting t n]
  exact positionOf_mono hm.1.1 hn.1.1 (hn.2 ⟨hm.1.1, Nat.le_trans hm.1.2 h⟩)

/-- Whatever the offset, its line is there, counts the line feeds before it, and counts columns up
to the last boundary that the offset and the content of the line reach. So positions never decrease,
and those of two carets differ. -/
theorem positionOf_counted (t : Text) :
    (∀ n, ∃ before content counted l, IsCounted t n before content counted ∧
      (ofText t).lines[(ofText t).lineAt n]? = some l ∧ l.start = before.size ∧
      l.content = content ∧
      (ofText t).positionOf n = ⟨(t.bytes.take n).count 0x0A, units counted⟩) ∧
    (∀ m n, m ≤ n → ¬ ((ofText t).positionOf n).precedes ((ofText t).positionOf m)) ∧
    ∀ m n i j, m < n → IsCaret t i m → IsCaret t j n →
      (ofText t).positionOf m ≠ (ofText t).positionOf n := by
  refine ⟨exists_isCounted t, fun m n ↦ not_precedes_positionOf t, ?_⟩
  intro m n i j hlt hm hn heq
  -- A caret can be read off its position.
  have hback := (offsetOf?_positionOf_caret hm).2
  rw [heq, (offsetOf?_positionOf_caret hn).2] at hback
  exact Nat.ne_of_gt hlt (Option.some.inj hback)

theorem positionOf_counted_pair :
    (∃ before content counted, IsCounted "ab\r\n😀c\r\n".toList 6 before content counted ∧
      (ofText "ab\r\n😀c\r\n".toList).positionOf 6 = ⟨1, units counted⟩) ∧
    ¬ ((ofText "ab\r\n😀c\r\n".toList).positionOf 20).precedes
      ((ofText "ab\r\n😀c\r\n".toList).positionOf 6) ∧
    (ofText "ab\r\n😀c\r\n".toList).positionOf 4 ≠
      (ofText "ab\r\n😀c\r\n".toList).positionOf 8 := by
  have hc : IsContent "ab\r\n😀c\r\n".toList "ab\r\n".toList "😀c".toList "\r\n".toList :=
    ⟨by decide, .inr ⟨"ab\r".toList, by decide⟩, by decide,
      .inr ⟨"\n".toList, by decide, .inr ⟨[], by decide⟩⟩⟩
  obtain ⟨hcounted, hmono, hcarets⟩ := positionOf_counted "ab\r\n😀c\r\n".toList
  obtain ⟨before, content, counted, -, h, -, -, -, hpos⟩ := hcounted 6
  refine ⟨⟨before, content, counted, h, hpos⟩, hmono 6 20 (by decide), ?_⟩
  apply hcarets 4 8 1 1 (by decide)
  · exact ⟨_, [], "😀c".toList, _, hc, by decide, by decide⟩
  · exact ⟨_, "😀".toList, "c".toList, _, hc, by decide, by decide⟩

end LineTable

end TemplateSqueeze
