import Mathlib.Data.List.Infix
import Mathlib.Data.List.Nodup
import TemplateSqueeze.Command.Memory
import TemplateSqueeze.Proofs.Command.Host

namespace TemplateSqueeze.Command.Memory

variable {s s' : Memory} {directory n text : Text} {place front way p q : List Text}

def ways (s : Memory) : List (List Text) := s.files.map Prod.fst

theorem isSome_fileAt?_iff : (s.fileAt? p).isSome ↔ p ∈ s.ways := by
  simp [fileAt?, ways, List.find?_isSome]

theorem fileAt?_put : (s.put q text).fileAt? p = if p = q then some text else s.fileAt? p := by
  unfold put
  split
  · next hthere =>
    have hway : ∀ f : List Text × Text, (if f.1 = q then (q, text) else f).1 = f.1 := by
      intro f
      split
      · next h => exact h.symm
      · rfl
    simp only [fileAt?, List.find?_map, Option.map_map, Function.comp_def, hway] at hthere ⊢
    split
    · next hpq =>
      subst hpq
      obtain ⟨f, hf⟩ := Option.isSome_iff_exists.1 (Option.isSome_map.symm.trans hthere)
      have hp := List.find?_some hf
      rw [decide_eq_true_eq] at hp
      rw [hf, Option.map_some, if_pos hp]
    · next hpq =>
      cases hf : s.files.find? fun f ↦ f.1 = p with
      | none => rfl
      | some f =>
        have hp := List.find?_some hf
        rw [decide_eq_true_eq] at hp
        rw [Option.map_some, Option.map_some, if_neg (hp ▸ hpq)]
  · next hnew =>
    simp only [fileAt?, List.find?_append, Option.isSome_map, Option.not_isSome_iff_eq_none]
      at hnew ⊢
    split
    · next hpq =>
      subst hpq
      rw [hnew]
      simp
    · next hpq => simp [Ne.symm hpq]

theorem ways_put : (s.put q text).ways = if q ∈ s.ways then s.ways else s.ways ++ [q] := by
  simp only [← isSome_fileAt?_iff]
  unfold put ways
  split
  · rw [List.map_map]
    apply List.map_congr_left
    intro f _
    rw [Function.comp_apply]
    split
    · next h => exact h.symm
    · rfl
  · simp

theorem isDirectory_iff : s.isDirectory p ↔ p = [] ∨ ∃ w ∈ s.ways, p <+: w ∧ w ≠ p := by
  simp [isDirectory, ways]

theorem isDirectory_put (h : s.isDirectory p) : (s.put q text).isDirectory p := by
  rw [isDirectory_iff] at h ⊢
  apply h.imp_right
  rintro ⟨w, hw, hlonger⟩
  refine ⟨w, ?_, hlonger⟩
  rw [ways_put]
  split
  · exact hw
  · exact List.mem_append_left _ hw

theorem enter_eq_ok (h : s.enter p n = .ok q) : s.isDirectory p ∧
    ∀ t : Memory, t.isDirectory p → t.enter p n = .ok q := by
  unfold enter at h
  split at h
  · next hp => exact ⟨hp, fun t ht ↦ by rw [enter, if_pos ht, h]⟩
  · split at h
    · cases h
    · cases h

theorem enter_name (h : s.isDirectory p) (hn : Path.IsName n) :
    s.enter p n = .ok (p ++ [n]) := by
  rw [enter, if_pos h, if_neg (not_or.2 ⟨hn.ne_nil, hn.ne_dot⟩), if_neg hn.ne_dots]

/-- A way leads to the same place as long as no directory on it goes. -/
theorem foldlM_enter_of_isDirectory (h : ∀ p, s.isDirectory p → s'.isDirectory p)
    (hway : way.foldlM s.enter p = .ok q) : way.foldlM s'.enter p = .ok q := by
  induction way generalizing p with
  | nil => exact hway
  | cons n way ih =>
    rw [List.foldlM_cons] at hway ⊢
    cases hn : s.enter p n with
    | error e =>
      rw [hn] at hway
      cases hway
    | ok p' =>
      obtain ⟨hp, henter⟩ := enter_eq_ok hn
      rw [hn] at hway
      rw [henter s' (h p hp)]
      exact ih hway

theorem resolve_of_isDirectory (h : ∀ p, s.isDirectory p → s'.isDirectory p)
    (hway : s.resolve way = .ok q) : s'.resolve way = .ok q := by
  match way, hway with
  | (c :: t) :: way, hway => exact foldlM_enter_of_isDirectory h hway

theorem resolve_append_singleton (hfront : front ≠ []) : s.resolve (front ++ [n]) =
    (s.resolve front).bind fun p ↦ s.enter p n := by
  match front with
  | [] :: _ => rfl
  | (c :: t) :: front =>
    change ((c :: t) :: front ++ [n]).foldlM s.enter [] = _
    rw [List.foldlM_append]
    change _ >>= (fun p ↦ s.enter p n >>= pure) = _
    simp only [bind_pure]
    rfl

theorem exists_pieces_join (hn : Path.IsName n) (h : s.resolve (pieces directory) = .ok place) :
    ∃ front, front ≠ [] ∧ pieces (Path.join directory n) = front ++ [n] ∧
      s.resolve front = .ok place := by
  have hcut (d : Text) : pieces (d ++ '/' :: n) = pieces d ++ [n] := by
    rw [pieces, List.splitOn_append_cons_self, List.splitOn_eq_singleton hn.noSlash]
    rfl
  unfold Path.join
  split
  · next hslash =>
    obtain ⟨d, rfl⟩ := List.getLast?_eq_some_iff.1 hslash
    have hsplit : pieces (d ++ ['/']) = pieces d ++ [[]] := by
      rw [pieces, List.splitOn_append_cons_self, List.splitOn_nil]
      rfl
    refine ⟨pieces d, List.splitOn_ne_nil _ _, ?_, ?_⟩
    · rw [List.append_assoc]
      exact hcut d
    · have hd : pieces d ≠ [] := List.splitOn_ne_nil _ _
      rw [hsplit, resolve_append_singleton hd] at h
      cases hd : s.resolve (pieces d) with
      | error e =>
        rw [hd] at h
        cases h
      | ok p =>
        rw [hd] at h
        change s.enter p [] = _ at h
        obtain ⟨hp, -⟩ := enter_eq_ok h
        rw [enter, if_pos hp, if_pos (.inl rfl)] at h
        exact h
  · exact ⟨pieces directory, List.splitOn_ne_nil _ _, hcut directory, h⟩

/-- At the place is a directory with only files in it. -/
structure Flat (s : Memory) (place : List Text) : Prop where
  isDirectory : s.isDirectory place
  nodup : s.ways.Nodup
  isName : ∀ w ∈ s.ways, place <+: w → ∃ n, Path.IsName n ∧ w = place ++ [n]

theorem Flat.put (h : s.Flat place) (hn : Path.IsName n) :
    (s.put (place ++ [n]) text).Flat place := by
  refine ⟨isDirectory_put h.isDirectory, ?_, ?_⟩
  · rw [ways_put]
    split
    · exact h.nodup
    · next hnew => exact List.nodup_append.2 ⟨h.nodup, List.nodup_singleton _, by grind⟩
  · intro w hw hplace
    rw [ways_put] at hw
    split at hw
    · exact h.isName w hw hplace
    · rcases List.mem_append.1 hw with hw | hw
      · exact h.isName w hw hplace
      · exact ⟨n, hn, List.mem_singleton.1 hw⟩

theorem Flat.not_isDirectory (h : s.Flat place) : ¬ s.isDirectory (place ++ [n]) := by
  rw [isDirectory_iff]
  rintro (hnil | ⟨w, hw, hlonger, hne⟩)
  · simp at hnil
  · obtain ⟨n', -, rfl⟩ := h.isName w hw ((List.prefix_append _ _).trans hlonger)
    exact hne (hlonger.eq_of_length (by simp)).symm

noncomputable def filesAt (s : Memory) (place : List Text) : Files :=
  Function.extend Text.bytes (fun n ↦ (s.fileAt? (place ++ [n])).map Text.bytes) fun _ ↦ none

theorem filesAt_bytes : s.filesAt place n.bytes = (s.fileAt? (place ++ [n])).map Text.bytes :=
  Text.bytes_injective.extend_apply _ _ n

theorem filesAt_put : (s.put (place ++ [n]) text).filesAt place =
    Function.update (s.filesAt place) n.bytes (some text.bytes) := by
  funext b
  by_cases hb : ∃ n', Text.bytes n' = b
  · obtain ⟨n', rfl⟩ := hb
    rw [filesAt_bytes, fileAt?_put]
    split
    · next h =>
      obtain rfl := List.singleton_inj.1 (List.append_cancel_left h)
      rw [Function.update_self, Option.map_some]
    · next h =>
      have hne : n' ≠ n := fun heq ↦ h (by rw [heq])
      rw [Function.update_of_ne (Text.bytes_injective.ne hne), filesAt_bytes]
  · rw [filesAt, Function.extend_apply' _ _ _ hb, Function.update_of_ne (fun h ↦ hb ⟨n, h.symm⟩),
      filesAt, Function.extend_apply' _ _ _ hb]

open scoped Classical in
/-- The files of a directory, if it has only files in it. -/
noncomputable def filesOf? (directory : Text) (s : Memory) : Option Files :=
  match s.resolve (pieces directory) with
  | .ok place => if s.Flat place then some (s.filesAt place) else none
  | .error _ => none

theorem filesOf?_eq_some {f : Files} : filesOf? directory s = some f ↔
    ∃ place, s.resolve (pieces directory) = .ok place ∧ s.Flat place ∧ s.filesAt place = f := by
  unfold filesOf?
  split
  · next place h => simp [h]
  · next e h => simp [h]

theorem filesOf?_put (hplace : s.resolve (pieces directory) = .ok place) (h : s.Flat place)
    (hn : Path.IsName n) : filesOf? directory (s.put (place ++ [n]) text) =
      some (Function.update (s.filesAt place) n.bytes (some text.bytes)) :=
  filesOf?_eq_some.2 ⟨place, resolve_of_isDirectory (fun _ ↦ isDirectory_put) hplace, h.put hn,
    filesAt_put⟩

theorem filesOf?_congr (h : s'.files = s.files) : filesOf? directory s' = filesOf? directory s := by
  obtain ⟨held, _, _⟩ := s
  obtain ⟨_, _, _⟩ := s'
  subst h
  ext f
  rw [filesOf?_eq_some, filesOf?_eq_some]
  constructor
  · rintro ⟨place, hplace, hflat, hf⟩
    exact ⟨place, hplace, ⟨hflat.isDirectory, hflat.nodup, hflat.isName⟩, hf⟩
  · rintro ⟨place, hplace, hflat, hf⟩
    exact ⟨place, hplace, ⟨hflat.isDirectory, hflat.nodup, hflat.isName⟩, hf⟩

theorem resolve_join (hplace : s.resolve (pieces directory) = .ok place) (h : s.isDirectory place)
    (hn : Path.IsName n) : s.resolve (pieces (Path.join directory n)) = .ok (place ++ [n]) := by
  obtain ⟨front, hfront, hpieces, hresolve⟩ := exists_pieces_join hn hplace
  rw [hpieces, resolve_append_singleton hfront, hresolve]
  exact enter_name h hn

theorem read_eq_ok_iff (hplace : s.resolve (pieces directory) = .ok place)
    (h : s.isDirectory place) (hn : Path.IsName n) :
    s.read (Path.join directory n) = .ok text ↔ s.fileAt? (place ++ [n]) = some text := by
  rw [read, resolve_join hplace h hn]
  dsimp only [bind, Except.bind]
  cases s.fileAt? (place ++ [n]) with
  | some found => simp [pure, Except.pure]
  | none => simp [throw, throwThe, MonadExceptOf.throw]

theorem write_eq_ok (hplace : s.resolve (pieces directory) = .ok place) (h : s.Flat place)
    (hn : Path.IsName n) :
    s.write (Path.join directory n) text = .ok (s.put (place ++ [n]) text) := by
  obtain ⟨front, hfront, hpieces, hresolve⟩ := exists_pieces_join hn hplace
  have hlength : (front ++ [n]).length ≠ 1 := by
    simpa using List.length_pos_iff.2 hfront |>.ne'
  have hlast : ¬ (n = [] ∨ n = ['.'] ∨ n = ['.', '.']) := by
    rintro (hnil | hdot | hdots)
    · exact hn.ne_nil hnil
    · exact hn.ne_dot hdot
    · exact hn.ne_dots hdots
  simp only [write, hpieces, if_neg hlength, List.dropLast_concat, List.getLast?_concat,
    Option.getD_some, hresolve]
  change (if n = [] ∨ n = ['.'] ∨ n = ['.', '.'] then _ else _ : Except SystemError Memory) = _
  rw [if_neg hlast]
  change (s.enter place n).bind _ = _
  rw [enter_name h.isDirectory hn]
  change (if s.isDirectory (place ++ [n]) then _ else _ : Except SystemError Memory) = _
  rw [if_neg h.not_isDirectory]
  rfl

theorem perform_write {path : Text} (h : s.write path text = .ok s') :
    perform (host.write path text) s = (.ok (), s') := by
  have hget : perform get s = (s, s) := rfl
  simp only [host, perform_bind, hget, h]
  rfl

theorem isThere_join (hplace : s.resolve (pieces directory) = .ok place)
    (h : s.isDirectory place) (hn : Path.IsName n) (hfile : (s.fileAt? (place ++ [n])).isSome) :
    s.isThere (Path.join directory n) := by
  rw [isThere, resolve_join hplace h hn, Bool.or_eq_true]
  exact .inr hfile

def nameAt? (place way : List Text) : Option Text :=
  if way.dropLast = place then way.getLast? else none

theorem nameAt?_eq_some : nameAt? place way = some n ↔ way = place ++ [n] := by
  rw [nameAt?, Option.ite_none_right_eq_some]
  constructor
  · rintro ⟨rfl, hlast⟩
    exact (List.dropLast_append_getLast? n hlast).symm
  · rintro rfl
    simp

theorem filesIn_eq_ok (hplace : s.resolve (pieces directory) = .ok place) (h : s.Flat place) :
    s.filesIn directory = .ok (s.ways.filterMap (nameAt? place)) := by
  rw [filesIn, hplace, ways, List.filterMap_map]
  exact if_pos h.isDirectory

theorem Flat.lists (h : s.Flat place) :
    Lists (s.filesAt place) (s.ways.filterMap (nameAt? place)) where
  nodup := by
    refine List.Nodup.filterMap ?_ h.nodup
    intro way way' n hn hn'
    exact (nameAt?_eq_some.1 hn).trans (nameAt?_eq_some.1 hn').symm
  mem_iff n := by
    simp only [List.mem_filterMap, nameAt?_eq_some, exists_eq_right]
    rw [filesAt_bytes, Option.isSome_map, isSome_fileAt?_iff, iff_and_self]
    intro hmem
    obtain ⟨n', hn', heq⟩ := h.isName _ hmem (List.prefix_append _ _)
    obtain rfl := List.singleton_inj.1 (List.append_cancel_left heq)
    exact hn'

noncomputable def folder (directory : Text) : Folder host directory where
  files? := filesOf? directory
  readable _ := True
  writable _ := True
  readable_of_writable _ := id
  read s f n hs hn := by
    obtain ⟨place, hplace, hflat, rfl⟩ := filesOf?_eq_some.1 hs
    refine ⟨_, s, rfl, hs, fun t ↦ ?_⟩
    rw [read_eq_ok_iff hplace hflat.isDirectory hn, filesAt_bytes, true_and,
      Option.map_eq_some_iff]
    simp [Text.bytes_injective.eq_iff]
  write s f n t hs hn := by
    obtain ⟨place, hplace, hflat, rfl⟩ := filesOf?_eq_some.1 hs
    have hrun : perform (host.write (Path.join directory n) t) s =
        (.ok (), s.put (place ++ [n]) t) :=
      perform_write (write_eq_ok hplace hflat hn)
    exact ⟨_, _, hrun, by simp, fun _ ↦ filesOf?_put hplace hflat hn⟩
  isThere s f n hs hn hfile := by
    obtain ⟨place, hplace, hflat, rfl⟩ := filesOf?_eq_some.1 hs
    rw [filesAt_bytes, Option.isSome_map] at hfile
    exact ⟨s, Prod.ext (isThere_join hplace hflat.isDirectory hn hfile) rfl, hs⟩
  filesIn s f hs := by
    obtain ⟨place, hplace, hflat, rfl⟩ := filesOf?_eq_some.1 hs
    exact ⟨_, s, Prod.ext (filesIn_eq_ok hplace hflat) rfl, hs, hflat.lists⟩
  print s t := filesOf?_congr rfl
  warn s t := filesOf?_congr rfl

end TemplateSqueeze.Command.Memory
