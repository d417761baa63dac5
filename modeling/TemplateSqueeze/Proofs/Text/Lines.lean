import Mathlib.Data.List.Induction
import TemplateSqueeze.Proofs.Text.Cut
import TemplateSqueeze.Text.LineTable

namespace TemplateSqueeze

namespace Text

/-- A whole line of a text, with the text before it and the text behind it. -/
structure IsLine (t before line after : Text) : Prop where
  eq : t = before ++ line ++ after
  starts : before = [] ∨ ∃ b, before = b ++ ['\n']
  noFeed : '\n' ∉ line
  ends : after = [] ∨ ∃ r, after = '\n' :: r

theorem exists_lastLine (a : Text) :
    ∃ p l : Text, a = p ++ l ∧ '\n' ∉ l ∧ (p = [] ∨ ∃ b, p = b ++ ['\n']) := by
  induction a using List.reverseRecOn with
  | nil => exact ⟨[], [], rfl, by simp, .inl rfl⟩
  | append_singleton a c ih =>
    by_cases hc : c = '\n'
    · exact ⟨a ++ [c], [], by simp, by simp, .inr ⟨a, by rw [hc]⟩⟩
    · obtain ⟨p, l, rfl, hl, hp⟩ := ih
      refine ⟨p, l ++ [c], by simp, ?_, hp⟩
      simp only [List.mem_append, List.mem_singleton, not_or]
      exact ⟨hl, fun h ↦ hc h.symm⟩

theorem exists_firstLine (r : Text) :
    ∃ l q : Text, r = l ++ q ∧ '\n' ∉ l ∧ (q = [] ∨ ∃ s, q = '\n' :: s) := by
  induction r with
  | nil => exact ⟨[], [], rfl, by simp, .inl rfl⟩
  | cons c r ih =>
    by_cases hc : c = '\n'
    · exact ⟨[], c :: r, rfl, by simp, .inr ⟨r, by rw [hc]⟩⟩
    · obtain ⟨l, q, rfl, hl, hq⟩ := ih
      refine ⟨c :: l, q, rfl, ?_, hq⟩
      simp only [List.mem_cons, not_or]
      exact ⟨fun h ↦ hc h.symm, hl⟩

theorem exists_isLine (a r : Text) :
    ∃ p x y q : Text, a = p ++ x ∧ r = y ++ q ∧ IsLine (a ++ r) p (x ++ y) q := by
  obtain ⟨p, x, rfl, hx, hp⟩ := exists_lastLine a
  obtain ⟨y, q, rfl, hy, hq⟩ := exists_firstLine r
  exact ⟨p, x, y, q, rfl, rfl, by simp, hp, by simp [hx, hy], hq⟩

theorem count_feed_eq_zero {l : Text} (h : '\n' ∉ l) : l.count '\n' = 0 := List.count_eq_zero.2 h

theorem count_le_of_size_le {a r b s : Text} (h : a ++ r = b ++ s) (hs : a.size ≤ b.size) :
    a.count '\n' ≤ b.count '\n' := by
  obtain ⟨m, rfl, -⟩ := exists_between h hs
  simp

namespace IsLine

variable {t p l q p' l' q' : Text}

theorem eq_append (h : IsLine t p l q) : t = p ++ (l ++ q) := by rw [h.eq, List.append_assoc]

theorem size_le_of_count_le (h : IsLine t p l q) (h' : IsLine t p' l' q')
    (hc : p.count '\n' ≤ p'.count '\n') : p.size ≤ p'.size := by
  by_contra hlt
  obtain ⟨m, hm, -⟩ := exists_between (h'.eq_append.symm.trans h.eq_append) (by omega)
  have hne : m ≠ [] := by
    rintro rfl
    rw [List.append_nil] at hm
    rw [hm] at hlt
    exact hlt (Nat.le_refl _)
  rcases h.starts with rfl | ⟨b, hb⟩
  · rw [eq_comm, List.append_eq_nil_iff] at hm
    exact hne hm.2
  · have hfeed : '\n' ∈ m := by
      obtain ⟨m', c, rfl⟩ := List.eq_nil_or_concat m |>.resolve_left hne
      rw [hb, List.concat_eq_append, ← List.append_assoc] at hm
      have hc : ['\n'] = [c] := (List.append_inj' hm rfl).2
      simp [← (List.cons.inj hc).1]
    have := List.count_pos_iff.2 hfeed
    rw [hm, List.count_append] at hc
    omega

theorem size_le_of_count_lt (h : IsLine t p l q) (h' : IsLine t p' l' q')
    (hc : p.count '\n' < p'.count '\n') : p.size + l.size < p'.size := by
  by_contra hle
  have ht : (p' ++ (l' ++ q')) = ((p ++ l) ++ q) := h'.eq_append.symm.trans h.eq
  have := count_le_of_size_le ht (by rw [size_append]; omega)
  rw [List.count_append, count_feed_eq_zero h.noFeed] at this
  omega

theorem size_le_of_append_eq (h : l ++ q = l' ++ q') (hq : q = [] ∨ ∃ r, q = '\n' :: r)
    (hl' : '\n' ∉ l') : l'.size ≤ l.size := by
  by_contra hlt
  obtain ⟨m, rfl, hm⟩ := exists_between h (by omega)
  rcases hq with rfl | ⟨r, rfl⟩
  · rw [eq_comm, List.append_eq_nil_iff] at hm
    rw [hm.1] at hlt
    simp at hlt
  · cases m with
    | nil => simp at hlt
    | cons c m =>
      obtain ⟨rfl, -⟩ := List.cons.inj hm
      simp at hl'

theorem unique (h : IsLine t p l q) (h' : IsLine t p' l' q')
    (hc : p.count '\n' = p'.count '\n') : p = p' ∧ l = l' ∧ q = q' := by
  have hs := Nat.le_antisymm (h.size_le_of_count_le h' (by omega))
    (h'.size_le_of_count_le h (by omega))
  obtain ⟨rfl, hr⟩ := cut_unique (h.eq_append.symm.trans h'.eq_append) hs
  have hlen : l.size = l'.size := Nat.le_antisymm
    (size_le_of_append_eq hr.symm h'.ends h.noFeed) (size_le_of_append_eq hr h.ends h'.noFeed)
  exact ⟨rfl, cut_unique hr hlen⟩

theorem of_cons {c : Char} (h : IsLine t (c :: p) l q) :
    IsLine (p ++ l ++ q) p l q ∧ (c ≠ '\n' → ∃ b, p = b ++ ['\n']) := by
  obtain ⟨-, hp, hl, hq⟩ := h
  rcases hp with hp | ⟨b, hb⟩
  · cases hp
  cases b with
  | nil =>
    obtain ⟨rfl, rfl⟩ := List.cons.inj hb
    exact ⟨⟨rfl, .inl rfl, hl, hq⟩, fun hc ↦ absurd rfl hc⟩
  | cons d b =>
    obtain ⟨rfl, rfl⟩ := List.cons.inj hb
    exact ⟨⟨rfl, .inr ⟨b, rfl⟩, hl, hq⟩, fun _ ↦ ⟨b, rfl⟩⟩

end IsLine

theorem splitLines_eq_splitOn (t : Text) : splitLines t = List.splitOn '\n' t := by
  induction t with
  | nil => rfl
  | cons c t ih =>
    rw [splitLines, List.splitOn_cons_eq_if_modifyHead, ← ih]
    cases h : splitLines t with
    | nil => exact absurd h (splitLines_ne_nil t)
    | cons l ls => simp only [beq_iff_eq, List.modifyHead_cons]

theorem exists_splitLines_eq_cons {l q : Text} (hl : '\n' ∉ l)
    (hq : q = [] ∨ ∃ r, q = '\n' :: r) : ∃ ls, splitLines (l ++ q) = l :: ls := by
  rw [splitLines_eq_splitOn]
  rcases hq with rfl | ⟨r, rfl⟩
  · rw [List.append_nil]
    exact ⟨[], List.splitOn_eq_singleton hl⟩
  · exact ⟨_, List.splitOn_append_cons_self_of_not_mem hl r⟩

theorem length_splitLines (t : Text) : t.splitLines.length = t.count '\n' + 1 := by
  induction t with
  | nil => rfl
  | cons c t ih =>
    rw [splitLines]
    split
    · next hc => simp [hc, ih]
    · next hc =>
      split
      · next h => exact absurd h (splitLines_ne_nil t)
      · next h =>
        rw [h] at ih
        simpa [List.count_cons_of_ne hc] using ih

end Text

namespace Line

open Text

theorem getElem?_layout_splitLines {t p l q : Text} (h : IsLine t p l q) (s : Nat) :
    (layout s t.splitLines)[p.count '\n']? = some (ofText (s + p.size) l) := by
  induction p generalizing t s with
  | nil =>
    obtain ⟨rfl, -, hl, hq⟩ := h
    obtain ⟨ls, hls⟩ := exists_splitLines_eq_cons hl hq
    simp [hls, layout]
  | cons c p ih =>
    obtain ⟨htail, hends⟩ := h.of_cons
    have ih := ih htail
    obtain rfl := h.eq
    by_cases hc : c = '\n'
    · subst hc
      have hsize : Char.utf8Size '\n' = 1 := by decide
      simp only [List.cons_append, splitLines, ↓reduceIte, layout, List.count_cons_self,
        List.getElem?_cons_succ, ih, size_nil, size_cons, hsize]
      congr 2
      omega
    · -- The piece that grows by `c` is not the one to be found, as a line feed is between them.
      obtain ⟨b, rfl⟩ := hends hc
      obtain ⟨m, ms, hm⟩ := List.exists_cons_of_ne_nil (splitLines_ne_nil (b ++ ['\n'] ++ l ++ q))
      have ih := ih (s + c.utf8Size)
      rw [hm] at ih
      simp only [List.cons_append, splitLines, hc, ↓reduceIte, hm, layout,
        List.count_cons_of_ne hc, size_cons] at ih ⊢
      simp only [List.count_append, List.count_singleton_self, List.getElem?_cons_succ] at ih ⊢
      rw [← Nat.add_assoc, ih, Nat.add_assoc]

end Line

namespace Text

theorem exists_isLine_of_le_count {t : Text} {k : Nat} (hk : k ≤ t.count '\n') :
    ∃ p l q, IsLine t p l q ∧ p.count '\n' = k := by
  induction t generalizing k with
  | nil => exact ⟨[], [], [], ⟨rfl, .inl rfl, by simp, .inl rfl⟩, by simp at hk ⊢; exact hk.symm⟩
  | cons c t ih =>
    cases k with
    | zero =>
      obtain ⟨p, x, l, q, hp, -, h⟩ := exists_isLine [] (c :: t)
      obtain ⟨rfl, rfl⟩ := List.append_eq_nil_iff.1 hp.symm
      exact ⟨[], l, q, h, rfl⟩
    | succ k =>
      by_cases hc : c = '\n'
      · subst hc
        obtain ⟨p, l, q, h, rfl⟩ := ih (k := k) (by simpa using hk)
        refine ⟨'\n' :: p, l, q, ⟨by simp [h.eq], .inr ?_, h.noFeed, h.ends⟩, by simp⟩
        rcases h.starts with rfl | ⟨b, rfl⟩
        · exact ⟨[], rfl⟩
        · exact ⟨'\n' :: b, rfl⟩
      · obtain ⟨p, l, q, h, hp⟩ := ih (k := k + 1) (by simpa [List.count_cons_of_ne hc] using hk)
        refine ⟨c :: p, l, q, ⟨by simp [h.eq], .inr ?_, h.noFeed, h.ends⟩,
          by rw [List.count_cons_of_ne hc, hp]⟩
        rcases h.starts with rfl | ⟨b, rfl⟩
        · simp at hp
        · exact ⟨c :: b, rfl⟩

end Text

namespace LineTable

open Text

theorem getElem?_lines {t p l q : Text} (h : IsLine t p l q) :
    (ofText t).lines[p.count '\n']? = some (Line.ofText p.size l) := by
  simpa [ofText] using Line.getElem?_layout_splitLines h 0

theorem getElem?_lines_eq_some {t : Text} {k : Nat} {l : Line} (h : (ofText t).lines[k]? = some l) :
    ∃ p x q, IsLine t p x q ∧ p.count '\n' = k ∧ l = Line.ofText p.size x := by
  have hk : k < (ofText t).lines.size := (Array.getElem?_eq_some_iff.1 h).1
  rw [show (ofText t).lines.size = t.count '\n' + 1 by
    simp [ofText, Line.length_layout, length_splitLines]] at hk
  obtain ⟨p, x, q, hl, rfl⟩ := exists_isLine_of_le_count (Nat.le_of_lt_succ hk)
  rw [getElem?_lines hl] at h
  exact ⟨p, x, q, hl, rfl, (Option.some.inj h).symm⟩

/-- The search ends between a line that starts no later than the offset and one that starts behind
it, as long as the interval it halves lies between such lines. -/
theorem search_spec {lines : Array Line} {n lo hi : Nat} (h : lo < hi) (hs : hi ≤ lines.size)
    (hlo : ∀ l, lines[lo]? = some l → l.start ≤ n)
    (hhi : ∀ l, lines[hi]? = some l → n < l.start) :
    search lines n lo hi < lines.size ∧
      (∀ l, lines[search lines n lo hi]? = some l → l.start ≤ n) ∧
      ∀ l, lines[search lines n lo hi + 1]? = some l → n < l.start := by
  fun_induction search lines n lo hi with
  | case1 lo hi hle =>
    obtain rfl : hi = lo + 1 := by omega
    exact ⟨hs, hlo, hhi⟩
  | case2 lo hi hle mid l hl hstart ih =>
    exact ih (by omega) hs (fun m hm ↦ by rw [hl] at hm; cases hm; exact hstart) hhi
  | case3 lo hi hle mid l hl hstart ih =>
    exact ih (by omega) (by omega) hlo (fun m hm ↦ by rw [hl] at hm; cases hm; omega)
  | case4 lo hi hle mid hn =>
    have := Array.getElem?_eq_none_iff.1 hn
    omega

theorem lineAt_spec (t : Text) (n : Nat) : ∃ p x q, IsLine t p x q ∧
    p.count '\n' = (ofText t).lineAt n ∧ p.size ≤ n ∧
      ∀ p' x' q', IsLine t p' x' q' → p'.count '\n' = p.count '\n' + 1 → n < p'.size := by
  obtain ⟨hk, hle, hlt⟩ := search_spec (n := n) (ofText t).nonempty (Nat.le_refl _)
    (fun l hl ↦ by
      obtain ⟨p, x, q, h, hp, rfl⟩ := getElem?_lines_eq_some hl
      obtain ⟨p₀, l₀, q₀, h₀, hp₀⟩ := exists_isLine_of_le_count (t := t) (Nat.zero_le _)
      rcases h.starts with rfl | ⟨b, rfl⟩
      · exact Nat.zero_le _
      · simp at hp)
    (fun l hl ↦ by rw [Array.getElem?_eq_none (Nat.le_refl _)] at hl; cases hl)
  obtain ⟨l, hl⟩ : ∃ l, (ofText t).lines[(ofText t).lineAt n]? = some l :=
    ⟨_, Array.getElem?_eq_getElem hk⟩
  obtain ⟨p, x, q, h, hp, rfl⟩ := getElem?_lines_eq_some hl
  refine ⟨p, x, q, h, hp, hle _ hl, fun p' x' q' h' hp' ↦ hlt (Line.ofText p'.size x') ?_⟩
  rw [← getElem?_lines h', hp', hp]
  rfl

theorem lineAt_eq {t p l q : Text} (h : IsLine t p l q) {n : Nat} (hp : p.size ≤ n)
    (hn : n ≤ p.size + l.size) : (ofText t).lineAt n = p.count '\n' := by
  obtain ⟨p', l', q', h', hk, hle, hlt⟩ := lineAt_spec t n
  rw [← hk]
  rcases Nat.lt_trichotomy (p'.count '\n') (p.count '\n') with hc | hc | hc
  · have hcount : p'.count '\n' + 1 ≤ t.count '\n' := by
      rw [h.eq, List.count_append, List.count_append]
      omega
    obtain ⟨p₂, l₂, q₂, h₂, hc₂⟩ := exists_isLine_of_le_count hcount
    have h₃ := hlt p₂ l₂ q₂ h₂ hc₂
    have h₄ := h₂.size_le_of_count_le h (by omega)
    omega
  · exact hc
  · have := h.size_le_of_count_lt h' hc
    omega

end LineTable

end TemplateSqueeze
