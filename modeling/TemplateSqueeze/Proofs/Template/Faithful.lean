import Mathlib.Data.List.Basic
import TemplateSqueeze.Proofs.Text.Cut
import TemplateSqueeze.Template.Segment
import TemplateSqueeze.Text.Chars

namespace TemplateSqueeze

namespace Text

/-- Whether the source may be left at `lo` and gone on with at `hi`. -/
def MaySkip (source : Text) (lo hi : Nat) : Prop :=
  lo ≤ hi ∧ (lo < hi → source.charAt? lo = some '\n' → source.charBefore? lo ≠ some '\r')

theorem MaySkip.refl (source : Text) (lo : Nat) : source.MaySkip lo lo :=
  ⟨Nat.le_refl _, fun h ↦ absurd h (Nat.lt_irrefl _)⟩

theorem MaySkip.trans {source : Text} {lo mid hi : Nat} (h : source.MaySkip lo mid)
    (h' : source.MaySkip mid hi) : source.MaySkip lo hi := by
  refine ⟨Nat.le_trans h.1 h'.1, fun hlt ↦ ?_⟩
  rcases Nat.lt_or_eq_of_le h.1 with hlt' | rfl
  · exact h.2 hlt'
  · exact h'.2 hlt

theorem MaySkip.of_charAt? {source : Text} {lo hi : Nat} {c : Char} (h : lo ≤ hi)
    (hc : source.charAt? lo = some c) (hn : c ≠ '\n') : source.MaySkip lo hi := by
  refine ⟨h, fun _ hf ↦ ?_⟩
  rw [hc] at hf
  exact absurd (Option.some.inj hf) hn

theorem MaySkip.of_charBefore? {source : Text} {lo hi : Nat} {c : Char} (h : lo ≤ hi)
    (hc : source.charBefore? lo = some c) (hn : c ≠ '\r') : source.MaySkip lo hi := by
  refine ⟨h, fun _ _ hr ↦ ?_⟩
  rw [hc] at hr
  exact hn (Option.some.inj hr)

end Text

namespace Template

def Glyph.offset : Glyph → Nat
  | kept _ o => o
  | spelled _ o => o

namespace Segment

open Text

/-- A segment of glyphs that stand for source characters from `lo` up to `hi`. A kept one is that
character; a spelled one is visible ASCII in place of a character that ends no line. -/
inductive Faithful (source : Text) : Nat → Nat → Segment → Prop
  | nil {lo hi : Nat} : source.MaySkip lo hi → Faithful source lo hi []
  | kept {lo hi o : Nat} {c : Char} {s : Segment} :
    source.MaySkip lo o → source.charAt? o = some c →
    Faithful source (o + c.utf8Size) hi s → Faithful source lo hi (.kept c o :: s)
  | spelled {lo hi o : Nat} {c d : Char} {s : Segment} :
    source.MaySkip lo o → c.toNat < 128 → isLineTerminator c = false →
    source.charAt? o = some d → isLineTerminator d = false →
    Faithful source o hi s → Faithful source lo hi (.spelled c o :: s)

variable {source a b t : Text} {lo mid hi : Nat} {g : Glyph} {s s' pre post : Segment}

namespace Faithful

theorem le (h : Faithful source lo hi s) : lo ≤ hi := by
  induction h with
  | nil h => exact h.1
  | kept h _ _ ih => exact Nat.le_trans (Nat.le_trans h.1 (Nat.le_add_right _ _)) ih
  | spelled h _ _ _ _ _ ih => exact Nat.le_trans h.1 ih

theorem skip (h : source.MaySkip lo mid) (hs : Faithful source mid hi s) :
    Faithful source lo hi s := by
  cases hs with
  | nil h' => exact .nil (h.trans h')
  | kept h' hc ht => exact .kept (h.trans h') hc ht
  | spelled h' hc hl hd hl' ht => exact .spelled (h.trans h') hc hl hd hl' ht

theorem append (h : Faithful source lo mid s) (h' : Faithful source mid hi s') :
    Faithful source lo hi (s ++ s') := by
  induction h with
  | nil h => exact h'.skip h
  | kept h hc _ ih => exact .kept h hc (ih h')
  | spelled h hc hl hd hl' _ ih => exact .spelled h hc hl hd hl' (ih h')

theorem copy (h : source = a ++ t ++ b) :
    Faithful source a.size (a.size + t.size) (copy a.size t) := by
  induction t generalizing a with
  | nil => exact .nil (.refl _ _)
  | cons c t ih =>
    have ht := ih (a := a ++ [c]) (by simp [h])
    rw [size_append, size_cons, size_nil, Nat.add_zero] at ht
    refine .kept (.refl _ _) (charAt?_eq_some.2 ⟨a, t ++ b, by simp [h], rfl⟩) ?_
    rwa [size_cons, ← Nat.add_assoc]

theorem of_slice? (h : source.slice? lo hi = some t) : Faithful source lo hi (.copy lo t) := by
  obtain ⟨a, b, he, rfl, rfl⟩ := slice?_eq_some.1 h
  exact copy he

theorem exists_split (h : Faithful source lo hi (pre ++ post)) :
    ∃ mid, Faithful source lo mid pre ∧ Faithful source mid hi post := by
  induction pre generalizing lo with
  | nil => exact ⟨lo, .nil (.refl _ _), h⟩
  | cons g pre ih =>
    cases h with
    | kept h hc ht =>
      obtain ⟨mid, h₁, h₂⟩ := ih ht
      exact ⟨mid, .kept h hc h₁, h₂⟩
    | spelled h hc hl hd hl' ht =>
      obtain ⟨mid, h₁, h₂⟩ := ih ht
      exact ⟨mid, .spelled h hc hl hd hl' h₁, h₂⟩

theorem maySkip (h : Faithful source lo hi (g :: s)) : source.MaySkip lo g.offset := by
  cases h <;> assumption

theorem head (h : Faithful source lo hi (g :: s)) : ∃ d, source.charAt? g.offset = some d ∧
    (g = .kept d g.offset ∧ Faithful source (g.offset + d.utf8Size) hi s ∨
      isLineTerminator d = false ∧ g = .spelled g.char g.offset ∧ g.char.toNat < 128 ∧
        isLineTerminator g.char = false ∧ Faithful source g.offset hi s) := by
  cases h with
  | kept _ hc ht => exact ⟨_, hc, .inl ⟨rfl, ht⟩⟩
  | spelled _ hc hl hd hl' ht => exact ⟨_, hd, .inr ⟨hl', rfl, hc, hl, ht⟩⟩

theorem bounds (h : Faithful source lo hi s) : ∀ x ∈ s.origins, lo ≤ x ∧ x < source.size := by
  induction h with
  | nil => nofun
  | @kept lo hi o c s h hc _ ih =>
    intro x hx
    have hsize := charAt?_lt_size hc
    rcases List.mem_append.1 hx with hx | hx
    · have := List.mem_range'_1.1 hx
      have := h.1
      omega
    · have := ih x hx
      have := h.1
      omega
  | @spelled lo hi o c d s h _ _ hd _ _ ih =>
    intro x hx
    have hsize := charAt?_lt_size hd
    have := d.utf8Size_pos
    rcases List.mem_append.1 hx with hx | hx
    · rw [List.eq_of_mem_replicate hx]
      exact ⟨h.1, by omega⟩
    · have := ih x hx
      have := h.1
      omega

theorem sorted_origins (h : Faithful source lo hi s) : s.origins.Pairwise (· ≤ ·) := by
  induction h with
  | nil => exact List.Pairwise.nil
  | kept h _ ht ih =>
    refine List.pairwise_append.2 ⟨List.pairwise_le_range' _, ih, fun x hx y hy ↦ ?_⟩
    have := List.mem_range'_1.1 hx
    have := ht.bounds y hy
    omega
  | spelled h _ _ _ _ ht ih =>
    refine List.pairwise_append.2 ⟨List.pairwise_replicate.2 (.inr (Nat.le_refl _)), ih,
      fun x hx y hy ↦ ?_⟩
    rw [List.eq_of_mem_replicate hx]
    exact (ht.bounds y hy).1

end Faithful

theorem origins_copy (o : Nat) (t : Text) : (Segment.copy o t).origins = List.range' o t.size := by
  induction t generalizing o with
  | nil => rfl
  | cons c t ih =>
    have h : (Segment.copy o (c :: t)).origins =
        List.range' o c.utf8Size ++ (Segment.copy (o + c.utf8Size) t).origins := rfl
    rw [h, ih, size_cons, ← List.range'_append_1]

theorem bounds_of_mem_origins_copy {x : Nat} (h : source.slice? lo hi = some t)
    (hx : x ∈ (Segment.copy lo t).origins) : lo ≤ x ∧ x < hi ∧ hi ≤ source.size := by
  obtain ⟨a, r, rfl, rfl, rfl⟩ := slice?_eq_some.1 h
  rw [origins_copy, List.mem_range'_1] at hx
  simp only [size_append]
  omega

theorem copy_append (o : Nat) (x y : Text) : copy o (x ++ y) = copy o x ++ copy (o + x.size) y := by
  induction x generalizing o with
  | nil => rfl
  | cons c x ih => rw [List.cons_append, copy, ih, size_cons, copy, List.cons_append, Nat.add_assoc]

theorem text_cons (g : Glyph) (s : Segment) : text (g :: s) = g.char :: text s := rfl

theorem origins_cons (g : Glyph) (s : Segment) : origins (g :: s) = g.origins ++ origins s := rfl

theorem origins_singleton (g : Glyph) : origins [g] = g.origins := List.append_nil _

theorem size_text_singleton (g : Glyph) : (text [g]).size = g.char.utf8Size := Nat.add_zero _

theorem getElem?_origins_append {k : Nat} (hk : k < (text s).size) :
    (origins (pre ++ s ++ post))[(text pre).size + k]? = (origins s)[k]? := by
  rw [origins_append, origins_append, List.append_assoc, ← length_origins pre,
    List.getElem?_append_right (Nat.le_add_right _ _), Nat.add_sub_cancel_left,
    List.getElem?_append_left (by rwa [length_origins])]

theorem getElem?_origins {k : Nat} (hk : k < g.char.utf8Size) :
    (origins (pre ++ g :: post))[(text pre).size + k]? = g.origins[k]? := by
  have h : (origins (pre ++ [g] ++ post))[(text pre).size + k]? = (origins [g])[k]? :=
    getElem?_origins_append (by rwa [size_text_singleton])
  rwa [List.append_assoc, origins_singleton] at h

theorem getElem?_origins_offset :
    (origins (pre ++ g :: post))[(text pre).size]? = some g.offset := by
  have hg := g.char.utf8Size_pos
  rw [← Nat.add_zero (text pre).size, getElem?_origins hg]
  cases g <;> simp_all [Glyph.origins, Glyph.offset, Glyph.char]

theorem exists_glyph {i : Nat} (hi : i < (text s).size) : ∃ pre g post k, s = pre ++ g :: post ∧
    i = (text pre).size + k ∧ k < g.char.utf8Size := by
  induction s generalizing i with
  | nil => cases hi
  | cons g s ih =>
    rw [text_cons, size_cons] at hi
    by_cases hg : i < g.char.utf8Size
    · exact ⟨[], g, s, i, rfl, by simp [text], hg⟩
    · obtain ⟨pre, g', post, k, rfl, hk, hk'⟩ := ih (i := i - g.char.utf8Size) (by omega)
      exact ⟨g :: pre, g', post, k, rfl, by rw [text_cons, size_cons]; omega, hk'⟩

theorem exists_split_of_text (h : text s = a ++ b) :
    ∃ pre post, s = pre ++ post ∧ text pre = a ∧ text post = b := by
  obtain ⟨pre, post, rfl, h₁, h₂⟩ := List.map_eq_append_iff.1 h
  exact ⟨pre, post, rfl, h₁, h₂⟩

theorem exists_glyph_of_charAt? {c : Char} {n : Nat} (h : (text s).charAt? n = some c) :
    ∃ pre g post, s = pre ++ g :: post ∧ (text pre).size = n ∧ g.char = c := by
  obtain ⟨a, r, he, rfl⟩ := charAt?_eq_some.1 h
  obtain ⟨pre, post, rfl, rfl, hpost⟩ := exists_split_of_text he
  obtain ⟨g, post, rfl, hg, -⟩ := List.map_eq_cons_iff.1 hpost
  exact ⟨pre, g, post, rfl, rfl, hg⟩

end Segment

end Template

end TemplateSqueeze
