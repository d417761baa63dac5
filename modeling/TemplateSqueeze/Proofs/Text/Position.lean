import TemplateSqueeze.Proofs.Text.Lines

namespace TemplateSqueeze

theorem Position.precedes_iff {p q : Position} :
    p.precedes q ↔ p.line < q.line ∨ p.line = q.line ∧ p.column < q.column := by
  simp [Position.precedes]

namespace Text

theorem units_append (a b : Text) : units (a ++ b) = units a + units b := by
  induction a with
  | nil => simp [units]
  | cons c a ih => simp [units, ih, Nat.add_assoc]

theorem unitsOf_pos (c : Char) : 0 < unitsOf c := by unfold unitsOf; split <;> omega

theorem unitsOf_le_utf8Size (c : Char) : unitsOf c ≤ c.utf8Size := by
  have hpos := c.utf8Size_pos
  unfold unitsOf
  split
  · exact hpos
  · next hlarge =>
    have hne : c.utf8Size ≠ 1 := by
      rw [ne_eq, Char.utf8Size_eq_one_iff, UInt32.le_iff_toNat_le]
      exact fun h ↦ hlarge (Nat.lt_of_le_of_lt h (by decide))
    omega

theorem length_le_size (t : Text) : t.length ≤ t.size := by
  induction t with
  | nil => exact Nat.le_refl _
  | cons c t ih =>
    have hpos := c.utf8Size_pos
    rw [List.length_cons, size_cons]
    omega

theorem units_le_size (t : Text) : units t ≤ t.size := by
  induction t with
  | nil => exact Nat.le_refl _
  | cons c t ih => exact Nat.add_le_add (unitsOf_le_utf8Size c) ih

theorem unitsOf_eq_one_of_ascii {c : Char} (h : c.toNat < 128) : unitsOf c = 1 := by
  unfold unitsOf
  rw [if_pos (by omega)]

theorem utf8Size_eq_one_of_ascii {c : Char} (h : c.toNat < 128) : c.utf8Size = 1 := by
  rw [Char.utf8Size_eq_one_iff, UInt32.le_iff_toNat_le]
  exact Nat.le_of_lt_succ h

theorem unitsOf_eq_one_of_utf8Size {c : Char} (h : c.utf8Size = 1) : unitsOf c = 1 := by
  refine unitsOf_eq_one_of_ascii ?_
  rw [Char.utf8Size_eq_one_iff, UInt32.le_iff_toNat_le] at h
  exact Nat.lt_succ_of_le h

theorem units_eq_size_of_isAscii {t : Text} (h : t.isAscii) : units t = size t := by
  induction t with
  | nil => rfl
  | cons c t ih =>
    simp only [isAscii, List.all_cons, Bool.and_eq_true, decide_eq_true_eq] at h
    rw [units, size, ih h.2, unitsOf_eq_one_of_ascii h.1, utf8Size_eq_one_of_ascii h.1]

def weigh (weight : Char → Nat) : Text → Nat
  | [] => 0
  | c :: t => weight c + weigh weight t

theorem weigh_utf8Size (t : Text) : weigh Char.utf8Size t = t.size := by
  induction t with
  | nil => rfl
  | cons c t ih => rw [weigh, size, ih]

theorem weigh_unitsOf (t : Text) : weigh unitsOf t = units t := by
  induction t with
  | nil => rfl
  | cons c t ih => rw [weigh, units, ih]

theorem fitting_weigh_append {weight : Char → Nat} (hw : ∀ c, 0 < weight c) (a b : Text) :
    fitting weight (weigh weight a) (a ++ b) = a := by
  induction a with
  | nil =>
    cases b with
    | nil => rfl
    | cons c b =>
      have := hw c
      simp only [weigh, List.nil_append, fitting]
      rw [if_neg (by omega)]
  | cons c a ih =>
    simp only [weigh, List.cons_append, fitting] at ih ⊢
    rw [if_pos (by omega), Nat.add_sub_cancel_left, ih]

theorem fitting_utf8Size_append (a b : Text) : fitting Char.utf8Size a.size (a ++ b) = a := by
  rw [← weigh_utf8Size, fitting_weigh_append Char.utf8Size_pos]

theorem fitting_spec (weight : Char → Nat) (limit : Nat) (t : Text) :
    ∃ r, t = fitting weight limit t ++ r ∧ weigh weight (fitting weight limit t) ≤ limit ∧
      ∀ c s, r = c :: s → limit < weigh weight (fitting weight limit t) + weight c := by
  induction t generalizing limit with
  | nil => exact ⟨[], rfl, Nat.zero_le _, nofun⟩
  | cons c t ih =>
    rw [fitting]
    split
    · obtain ⟨r, hr, hle, hlt⟩ := ih (limit - weight c)
      refine ⟨r, by rw [List.cons_append, ← hr], ?_, fun d s hd ↦ ?_⟩
      · simp only [weigh] at hle ⊢
        omega
      · have := hlt d s hd
        simp only [weigh] at this ⊢
        omega
    · refine ⟨c :: t, rfl, Nat.zero_le _, ?_⟩
      rintro d s h
      cases h
      simp only [weigh]
      omega

theorem size_fitting_of_isAscii {weight : Char → Nat}
    (hw : ∀ c : Char, c.toNat < 128 → weight c = 1) {t : Text} (ht : t.isAscii) (limit : Nat) :
    size (fitting weight limit t) = min limit t.size := by
  induction t generalizing limit with
  | nil => exact (Nat.min_zero limit).symm
  | cons c t ih =>
    simp only [isAscii, List.all_cons, Bool.and_eq_true, decide_eq_true_eq] at ht
    have hc := utf8Size_eq_one_of_ascii ht.1
    rw [fitting, hw c ht.1, size_cons, hc]
    split
    · rw [size_cons, hc, ih ht.2]
      omega
    · rw [size_nil]
      omega

/-- The offset `n` lies on the line behind `p`: `a` is before it on that line, `b` behind it. -/
structure IsSpot (t : Text) (n : Nat) (p a b q : Text) : Prop where
  line : IsLine t p (a ++ b) q
  offset : p.size + a.size = n

theorem exists_isSpot (a r : Text) :
    ∃ p x y q : Text, a = p ++ x ∧ r = y ++ q ∧ IsSpot (a ++ r) a.size p x y q := by
  obtain ⟨p, x, y, q, rfl, rfl, h⟩ := exists_isLine a r
  exact ⟨p, x, y, q, rfl, rfl, h, (size_append p x).symm⟩

theorem IsBoundary.exists_isSpot {t : Text} {n : Nat} (h : t.IsBoundary n) :
    ∃ p a b q, IsSpot t n p a b q := by
  obtain ⟨a, r, rfl, rfl⟩ := h
  obtain ⟨p, x, y, q, -, -, h⟩ := Text.exists_isSpot a r
  exact ⟨p, x, y, q, h⟩

namespace IsSpot

variable {t p a b q p' a' b' q' : Text} {m n : Nat}

theorem eq (h : IsSpot t n p a b q) : t = (p ++ a) ++ (b ++ q) := by simp [h.line.eq]

theorem isBoundary (h : IsSpot t n p a b q) : t.IsBoundary n :=
  ⟨p ++ a, b ++ q, h.eq, (size_append p a).trans h.offset⟩

theorem count_feed (h : IsSpot t n p a b q) : a.count '\n' = 0 := by
  have := count_feed_eq_zero h.line.noFeed
  rw [List.count_append] at this
  omega

theorem compare (h : IsSpot t m p a b q) (h' : IsSpot t n p' a' b' q') (hle : m ≤ n) :
    p.count '\n' < p'.count '\n' ∨
      p' = p ∧ q' = q ∧ ∃ d : Text, a' = a ++ d ∧ b = d ++ b' := by
  have hs : (p ++ a).size ≤ (p' ++ a').size := by
    rw [size_append, size_append, h.offset, h'.offset]
    exact hle
  have hc := count_le_of_size_le (h.eq.symm.trans h'.eq) hs
  simp only [List.count_append, h.count_feed, h'.count_feed, Nat.add_zero] at hc
  rcases Nat.lt_or_eq_of_le hc with hlt | heq
  · exact .inl hlt
  · obtain ⟨rfl, hl, rfl⟩ := h.line.unique h'.line heq
    obtain ⟨d, hd, hd'⟩ := exists_between hl (by simpa [size_append] using hs)
    exact .inr ⟨rfl, rfl, d, hd, hd'⟩

end IsSpot

theorem exists_isSpot_across (a r : Text) {m : Text} (hm : '\n' ∉ m) : ∃ p x y q : Text,
    IsSpot (a ++ (m ++ r)) a.size p x (m ++ y) q ∧
      IsSpot (a ++ (m ++ r)) (a.size + m.size) p (x ++ m) y q := by
  obtain ⟨p, x, y, q, rfl, hy, h⟩ := exists_isSpot a (m ++ r)
  have hle : m.size ≤ y.size := by
    by_contra hlt
    obtain ⟨d, rfl, hq⟩ := exists_between hy.symm (by omega)
    rcases h.line.ends with rfl | ⟨s, rfl⟩
    · obtain ⟨rfl, -⟩ := List.append_eq_nil_iff.1 hq.symm
      simp at hlt
    · cases d with
      | nil => simp at hlt
      | cons c d =>
        obtain ⟨rfl, -⟩ := List.cons.inj hq
        simp at hm
  obtain ⟨d, rfl, -⟩ := exists_between hy hle
  refine ⟨p, x, d, q, h, ?_, by rw [size_append, size_append]; omega⟩
  rw [List.append_assoc x]
  exact h.line

end Text

namespace Line

open Text

theorem withoutReturn_cons {c : Char} {t : Text} (h : c :: t ≠ ['\r']) :
    withoutReturn (c :: t) = c :: withoutReturn t := by
  rw [withoutReturn]
  rintro rfl rfl
  exact h rfl

theorem withoutReturn_append {a b : Text} (hb : b ≠ []) :
    withoutReturn (a ++ b) = a ++ withoutReturn b := by
  induction a with
  | nil => rfl
  | cons c a ih =>
    rw [List.cons_append, withoutReturn_cons (by simp [hb]), ih, List.cons_append]

theorem withoutReturn_eq_nil {t : Text} : withoutReturn t = [] ↔ t = [] ∨ t = ['\r'] := by
  constructor
  · intro h
    cases t with
    | nil => exact .inl rfl
    | cons c t =>
      by_contra hn
      rw [withoutReturn_cons (fun h' ↦ hn (.inr h'))] at h
      cases h
  · rintro (rfl | rfl) <;> rfl

theorem exists_eq_withoutReturn_append (t : Text) :
    ∃ r, t = withoutReturn t ++ r ∧ (r = [] ∨ r = ['\r']) := by
  induction t with
  | nil => exact ⟨[], rfl, .inl rfl⟩
  | cons c t ih =>
    by_cases h : c :: t = ['\r']
    · exact ⟨['\r'], by rw [h]; rfl, .inr rfl⟩
    · obtain ⟨r, hr, hr'⟩ := ih
      exact ⟨r, by rw [withoutReturn_cons h, List.cons_append, ← hr], hr'⟩

theorem content_ofText (s : Nat) (t : Text) : (ofText s t).content = withoutReturn t := rfl

theorem stop_ofText (s : Nat) (t : Text) : (ofText s t).stop = s + (withoutReturn t).size := rfl

theorem columnAt_eq_fitting (l : Line) (n : Nat) : l.columnAt n =
    units (fitting Char.utf8Size (min (n - l.start) l.content.size) l.content) := by
  unfold columnAt
  rw [l.size_eq]
  dsimp only
  split
  · next h =>
    rw [l.ascii_eq] at h
    obtain ⟨r, hr, -⟩ := fitting_spec Char.utf8Size (min (n - l.start) l.content.size) l.content
    have hascii := h
    rw [hr, isAscii, List.all_append, Bool.and_eq_true] at hascii
    rw [units_eq_size_of_isAscii hascii.1,
      size_fitting_of_isAscii (fun c hc ↦ utf8Size_eq_one_of_ascii hc) h, Nat.min_assoc,
      Nat.min_self]
  · rfl

theorem columnAt_eq {l : Line} {a b : Text} (h : l.content = a ++ b) :
    l.columnAt (l.start + a.size) = units a := by
  have hw : min (l.start + a.size - l.start) l.content.size = a.size := by
    rw [h, size_append]
    omega
  rw [columnAt_eq_fitting, hw, h, fitting_utf8Size_append]

theorem columnAt_le_size (l : Line) (n : Nat) : l.columnAt n ≤ l.content.size := by
  rw [columnAt_eq_fitting]
  obtain ⟨r, hr, -⟩ := fitting_spec Char.utf8Size (min (n - l.start) l.content.size) l.content
  have hsize := congrArg Text.size hr
  rw [size_append] at hsize
  refine Nat.le_trans (units_le_size _) ?_
  omega

theorem columnAt_stop_le {l : Line} {n : Nat} (hn : l.stop ≤ n) :
    l.columnAt n = units l.content := by
  have hw : min (n - l.start) l.content.size = l.content.size := by
    rw [stop, l.size_eq] at hn
    omega
  have hall := fitting_utf8Size_append l.content []
  rw [List.append_nil] at hall
  rw [columnAt_eq_fitting, hw, hall]

theorem offsetAt_eq (l : Line) (column : Nat) :
    l.offsetAt column = l.start + Text.size (fitting unitsOf column l.content) := by
  unfold offsetAt
  split
  · next h =>
    rw [l.ascii_eq] at h
    rw [size_fitting_of_isAscii (fun c hc ↦ unitsOf_eq_one_of_ascii hc) h, l.size_eq]
  · rfl

end Line

namespace LineTable

open Text

def inContent (x : LineTable) (offset : Nat) : Bool :=
  x.lines[x.lineAt offset]?.any fun l ↦ offset < l.stop

/-- Whether a position points between the two units of one character. -/
def splitsPair (x : LineTable) (p : Position) : Prop :=
  ∃ l a c b, x.lines[p.line]? = some l ∧ l.content = a ++ c :: b ∧
    units a < p.column ∧ p.column < units a + unitsOf c

variable {t p a b q : Text} {m n : Nat}

theorem getElem?_lineAt (h : IsSpot t n p a b q) :
    (ofText t).lines[(ofText t).lineAt n]? = some (.ofText p.size (a ++ b)) := by
  rw [lineAt_eq h.line (by have := h.offset; omega)
    (by rw [size_append]; have := h.offset; omega), getElem?_lines h.line]

theorem inContent_iff (h : IsSpot t n p a b q) :
    (ofText t).inContent n ↔ b ≠ [] ∧ b ≠ ['\r'] := by
  rw [inContent, getElem?_lineAt h, Option.any_some, decide_eq_true_eq, Line.stop_ofText,
    ← h.offset]
  by_cases hb : b = []
  · subst hb
    obtain ⟨r, hr, -⟩ := Line.exists_eq_withoutReturn_append a
    have := congrArg size hr
    rw [size_append] at this
    simp only [List.append_nil, ne_eq, not_true_eq_false, false_and, iff_false]
    omega
  · rw [Line.withoutReturn_append hb, size_append]
    have := Line.withoutReturn_eq_nil (t := b)
    rw [← size_eq_zero] at this
    simp only [hb, false_or] at this
    simp only [ne_eq, hb, not_false_eq_true, true_and, ← this]
    omega

theorem exists_charAt?_of_inContent (hn : t.IsBoundary n) (hc : (ofText t).inContent n) :
    ∃ c, t.charAt? n = some c := by
  obtain ⟨p, a, b, q, h⟩ := hn.exists_isSpot
  obtain ⟨c, b, rfl⟩ := List.exists_cons_of_ne_nil ((inContent_iff h).1 hc).1
  refine ⟨c, charAt?_eq_some.2 ⟨p ++ a, b ++ q, by simp [h.line.eq], ?_⟩⟩
  rw [size_append, h.offset]

theorem positionOf_spot (h : IsSpot t n p a b q) :
    (ofText t).positionOf n =
      ⟨p.count '\n', units (if b = [] then Line.withoutReturn a else a)⟩ := by
  have hn := h.offset
  have hline : (ofText t).lineAt n = p.count '\n' :=
    lineAt_eq h.line (by omega) (by rw [size_append]; omega)
  simp only [positionOf, hline, getElem?_lines h.line, Position.mk.injEq, true_and]
  split
  · next hb =>
    subst hb
    rw [Line.columnAt_stop_le, Line.content_ofText, List.append_nil]
    obtain ⟨r, hr, -⟩ := Line.exists_eq_withoutReturn_append a
    have := congrArg size hr
    rw [size_append] at this
    rw [Line.stop_ofText, List.append_nil, ← h.offset]
    omega
  · next hb =>
    rw [← h.offset]
    exact Line.columnAt_eq (l := .ofText p.size (a ++ b)) (Line.withoutReturn_append hb)

theorem positionOf_le_size (t : Text) (n : Nat) :
    ((ofText t).positionOf n).line ≤ t.size ∧ ((ofText t).positionOf n).column ≤ t.size := by
  obtain ⟨p, x, q, h, hp, -, -⟩ := lineAt_spec t n
  have hl := getElem?_lines h
  rw [hp] at hl
  have hsize := congrArg Text.size h.eq
  rw [size_append, size_append] at hsize
  have hcount : p.count '\n' ≤ p.size := Nat.le_trans List.count_le_length (length_le_size p)
  have hcolumn := Line.columnAt_le_size (.ofText p.size x) n
  obtain ⟨r, hr, -⟩ := Line.exists_eq_withoutReturn_append x
  have hcontent := congrArg Text.size hr
  rw [size_append] at hcontent
  rw [Line.content_ofText] at hcolumn
  simp only [positionOf, hl]
  omega

theorem positionOf_of_ne_nil (h : IsSpot t n p a b q) (hb : b ≠ []) :
    (ofText t).positionOf n = ⟨p.count '\n', units a⟩ := by
  rw [positionOf_spot h, if_neg hb]

theorem positionOf_line (h : IsSpot t n p a b q) :
    ((ofText t).positionOf n).line = p.count '\n' := by rw [positionOf_spot h]

theorem startsLine_iff (h : IsSpot t n p a b q) : (ofText t).startsLine n ↔ a = [] := by
  have := h.offset
  rw [startsLine, getElem?_lineAt h, ← size_eq_zero, beq_iff_eq]
  simp only [Line.ofText]
  omega

theorem isBoundary_of_startsLine (h : (ofText t).startsLine n) : t.IsBoundary n := by
  unfold startsLine at h
  split at h
  · next l hl =>
    obtain ⟨p, x, q, hline, -, rfl⟩ := getElem?_lines_eq_some hl
    exact ⟨p, x ++ q, hline.eq_append, beq_iff_eq.1 h⟩
  · cases h

theorem startsLine_append_feed (a b : Text) :
    (ofText (a ++ '\n' :: b)).startsLine (a.size + 1) := by
  obtain ⟨p, x, y, q, hp, -, h⟩ := Text.exists_isSpot (a ++ ['\n']) b
  have hs : (a ++ ['\n']).size = a.size + 1 := by rw [size_append]; rfl
  rw [List.append_assoc, List.singleton_append, hs] at h
  rw [startsLine_iff h]
  rcases List.eq_nil_or_concat x with rfl | ⟨x, c, rfl⟩
  · rfl
  · rw [List.concat_eq_append, ← List.append_assoc] at hp
    have hc := (List.append_inj' hp rfl).2
    have hn := h.line.noFeed
    rw [← (List.cons.inj hc).1] at hn
    simp at hn

theorem inContent_of_le (hm : t.IsBoundary m) (hn : t.IsBoundary n) (hle : m ≤ n)
    (hl : ((ofText t).positionOf n).line ≤ ((ofText t).positionOf m).line)
    (hc : (ofText t).inContent n) : (ofText t).inContent m := by
  obtain ⟨p, a, b, q, h⟩ := hm.exists_isSpot
  obtain ⟨p', a', b', q', h'⟩ := hn.exists_isSpot
  rw [positionOf_line h, positionOf_line h'] at hl
  rw [inContent_iff h'] at hc
  rw [inContent_iff h]
  rcases h.compare h' hle with hlt | ⟨-, -, d, -, rfl⟩
  · omega
  · refine ⟨by simp [hc.1], fun hd ↦ ?_⟩
    cases d with
    | nil => exact hc.2 hd
    | cons c d => exact hc.1 (List.append_eq_nil_iff.1 (List.cons.inj hd).2).2

theorem positionOf_across (a r : Text) {x : Text} (hx : '\n' ∉ x)
    (hc : (ofText (a ++ (x ++ r))).inContent (a.size + x.size)) :
    (ofText (a ++ (x ++ r))).inContent a.size ∧
      ((ofText (a ++ (x ++ r))).positionOf a.size).line =
        ((ofText (a ++ (x ++ r))).positionOf (a.size + x.size)).line ∧
      ((ofText (a ++ (x ++ r))).positionOf (a.size + x.size)).column =
        ((ofText (a ++ (x ++ r))).positionOf a.size).column + units x := by
  obtain ⟨p, w, y, q, h, h'⟩ := exists_isSpot_across a r hx
  have hy := ((inContent_iff h').1 hc).1
  have hline : ((ofText (a ++ (x ++ r))).positionOf a.size).line =
      ((ofText (a ++ (x ++ r))).positionOf (a.size + x.size)).line := by
    rw [positionOf_line h, positionOf_line h']
  refine ⟨?_, hline, ?_⟩
  · exact inContent_of_le h.isBoundary h'.isBoundary (Nat.le_add_right _ _)
      (Nat.le_of_eq hline.symm) hc
  · rw [positionOf_of_ne_nil h (by simp [hy]), positionOf_of_ne_nil h' hy, units_append]

theorem positionOf_mono (hm : t.IsBoundary m) (hn : t.IsBoundary n) (hle : m ≤ n) :
    ¬ ((ofText t).positionOf n).precedes ((ofText t).positionOf m) := by
  obtain ⟨p, a, b, q, h⟩ := hm.exists_isSpot
  obtain ⟨p', a', b', q', h'⟩ := hn.exists_isSpot
  rw [Position.precedes_iff, positionOf_spot h, positionOf_spot h']
  rcases h.compare h' hle with hlt | ⟨rfl, -, d, rfl, rfl⟩
  · simp only
    omega
  · simp only [Nat.lt_irrefl, true_and, false_or, Nat.not_lt]
    by_cases hd : d = []
    · simp [hd]
    · rw [if_neg (by simp [hd]), Line.withoutReturn_append hd]
      split <;> simp [units_append]

theorem inContent_between {k : Nat} (hk : t.IsBoundary k) (hm : t.IsBoundary m)
    (hn : t.IsBoundary n) (hkm : k ≤ m) (hmn : m ≤ n)
    (hl : ((ofText t).positionOf k).line = ((ofText t).positionOf n).line)
    (hc : (ofText t).inContent n) : (ofText t).inContent m := by
  refine inContent_of_le hm hn hmn ?_ hc
  have hmono := positionOf_mono hk hm hkm
  rw [Position.precedes_iff] at hmono
  omega

theorem positionOf_precedes (hm : t.IsBoundary m) (hn : t.IsBoundary n) (hlt : m < n)
    (hc : (ofText t).inContent m ∨ (ofText t).inContent n) :
    ((ofText t).positionOf m).precedes ((ofText t).positionOf n) := by
  obtain ⟨p, a, b, q, h⟩ := hm.exists_isSpot
  obtain ⟨p', a', b', q', h'⟩ := hn.exists_isSpot
  rw [Position.precedes_iff, positionOf_line h, positionOf_line h']
  rcases h.compare h' (Nat.le_of_lt hlt) with hline | ⟨rfl, -, d, rfl, rfl⟩
  · exact .inl hline
  · refine .inr ⟨rfl, ?_⟩
    have hd : d ≠ [] := by
      rintro rfl
      have := h.offset
      have := h'.offset
      rw [List.append_nil] at this
      omega
    have hc : (ofText t).inContent m := by
      rcases hc with hc | hc
      · exact hc
      · refine inContent_of_le hm hn (Nat.le_of_lt hlt) (Nat.le_of_eq ?_) hc
        rw [positionOf_line h, positionOf_line h']
    rw [inContent_iff h] at hc
    rw [positionOf_of_ne_nil h hc.1, positionOf_spot h']
    simp only
    obtain ⟨c, d, rfl⟩ := List.exists_cons_of_ne_nil hd
    have := unitsOf_pos c
    split
    · next hb' =>
      subst hb'
      rw [Line.withoutReturn_append (by simp), Line.withoutReturn_cons (by simpa using hc.2),
        units_append, units]
      omega
    · rw [units_append, units]
      omega

/-- On the way back from a position to an offset nothing is lost, unless the position splits a
character or lies behind its line's content. -/
theorem positionOf_offsetOf? {x : Position} (hs : ¬ (ofText t).splitsPair x)
    (h : (ofText t).offsetOf? x = some n) :
    t.IsBoundary n ∧ ((ofText t).positionOf n).line = x.line ∧
      ((ofText t).positionOf n = x ∨
        (ofText t).inContent n = false ∧ ((ofText t).positionOf n).column < x.column) := by
  obtain ⟨l, hl, rfl⟩ := Option.map_eq_some_iff.1 h
  obtain ⟨p, w, q, hw, hline, rfl⟩ := getElem?_lines_eq_some hl
  rw [Line.offsetAt_eq, Line.content_ofText]
  obtain ⟨r, hr, hle, hlt⟩ := fitting_spec unitsOf x.column (Line.withoutReturn w)
  obtain ⟨e, he, he'⟩ := Line.exists_eq_withoutReturn_append w
  generalize fitting unitsOf x.column (Line.withoutReturn w) = f at *
  rw [weigh_unitsOf] at hle hlt
  rw [hr, List.append_assoc] at he
  have hspot : IsSpot t ((Line.ofText p.size w).start + f.size) p f (r ++ e) q :=
    ⟨he ▸ hw, rfl⟩
  have hpos : (ofText t).positionOf ((Line.ofText p.size w).start + f.size) =
      ⟨x.line, units f⟩ := by
    rw [positionOf_spot hspot, ← hline]
    split
    · next hn =>
      obtain ⟨rfl, rfl⟩ := List.append_eq_nil_iff.1 hn
      rw [List.append_nil, List.append_nil] at he
      rw [List.append_nil] at hr
      rw [← he, hr, he]
    · rfl
  refine ⟨hspot.isBoundary, by rw [hpos], ?_⟩
  rw [hpos]
  rcases Nat.lt_or_eq_of_le hle with hlt' | heq
  · refine .inr ⟨?_, hlt'⟩
    cases r with
    | nil =>
      rw [Bool.eq_false_iff, ne_eq, inContent_iff hspot]
      rcases he' with rfl | rfl <;> simp
    | cons c r => exact absurd ⟨_, f, c, r, hl, hr, hlt', hlt c r rfl⟩ hs
  · exact .inl (by rw [heq])

theorem not_splitsPair_positionOf (h : t.IsBoundary n) :
    ¬ (ofText t).splitsPair ((ofText t).positionOf n) := by
  obtain ⟨p, a, b, q, hs⟩ := h.exists_isSpot
  rintro ⟨l, a', c, b', hl, hc, hlt, hlt'⟩
  rw [positionOf_line hs, getElem?_lines hs.line, Option.some.injEq] at hl
  subst hl
  rw [Line.content_ofText] at hc
  rw [positionOf_spot hs] at hlt hlt'
  simp only at hlt hlt'
  split at hlt
  · next hb =>
    rw [if_pos hb] at hlt'
    rw [hb, List.append_nil] at hc
    rw [hc, units_append, units] at hlt'
    omega
  · next hb =>
    rw [if_neg hb] at hlt'
    rw [Line.withoutReturn_append hb] at hc
    rcases List.append_eq_append_iff.1 hc with ⟨m, rfl, -⟩ | ⟨m, rfl, hm⟩
    · rw [units_append] at hlt
      omega
    · cases m with
      | nil =>
        rw [List.append_nil] at hlt
        omega
      | cons d m =>
        rw [← (List.cons.inj hm).1, units_append, units] at hlt'
        omega

theorem exists_offsetOf? {x : Position} (h : t.IsBoundary n)
    (hx : x.line = ((ofText t).positionOf n).line) : ∃ m, (ofText t).offsetOf? x = some m := by
  obtain ⟨p, a, b, q, hs⟩ := h.exists_isSpot
  rw [positionOf_line hs] at hx
  exact ⟨_, by rw [offsetOf?, hx, getElem?_lines hs.line]; rfl⟩

end LineTable

end TemplateSqueeze
