import Mathlib
import TemplateSqueeze.Proofs.Command.Memory
import TemplateSqueeze.Proofs.Text.Cut

namespace TemplateSqueeze.Command

open Run

variable {σ : Type} {host : Host (StateM σ)} {directory : Text}

def writeEach (host : Host (StateM σ)) (directory : Text) : List Fixture → Run (StateM σ) Unit
  | [] => return
  | x :: fixtures => do
    writeFixture host directory x
    writeEach host directory fixtures

theorem forIn_writeFixture (fixtures : List Fixture) :
    (forIn fixtures PUnit.unit fun x _ ↦ do
      writeFixture host directory x
      pure (ForInStep.yield PUnit.unit)) = writeEach host directory fixtures := by
  induction fixtures with
  | nil => rfl
  | cons x fixtures ih =>
    rw [List.forIn_cons, bind_assoc, writeEach, ← ih]
    simp only [pure_bind]

variable {f g : Files}

/-- Only files with the mark in their names are changed from `f` to `g`. -/
def KeepsUnmarked (f g : Files) : Prop :=
  ∀ n, (∀ name, Fixture.outMark <:+: name → n ≠ Text.bytes name) → g n = f n

theorem KeepsUnmarked.eq_of_text (h : KeepsUnmarked f g) {name : Text}
    (hname : ¬ Fixture.outMark <:+: name) : g name.bytes = f name.bytes := by
  apply h
  intro name' hmarked heq
  exact hname (Text.bytes_injective heq ▸ hmarked)

theorem KeepsUnmarked.eq_of_bytes (h : KeepsUnmarked f g) {b : List UInt8}
    (hb : ¬ Fixture.outMark.bytes <:+: b) : g b = f b := by
  apply h
  rintro name ⟨front, back, rfl⟩ rfl
  apply hb
  rw [Text.bytes_append, Text.bytes_append]
  exact List.infix_append _ _ _

theorem KeepsUnmarked.ofNames_eq (h : KeepsUnmarked f g) {names names' : List Text}
    (hlists : Lists f names) (hlists' : Lists g names') :
    Fixture.ofNames names = Fixture.ofNames names' := by
  apply Fixture.ofNames_eq hlists.nodup hlists'.nodup
  intro n hn
  rw [hlists.mem_iff, hlists'.mem_iff, h.eq_of_text hn]

namespace Fixture

def written (x : Fixture) (r : Mapped) (f : Files) : Files :=
  Function.update (Function.update f x.outName.bytes (some r.code.bytes)) x.mapName.bytes
    (some r.map.bytes)

theorem written_of_not_mem_map {x : Fixture} {r : Mapped} {b : List UInt8}
    (h : b ∉ x.outputs.map Text.bytes) : x.written r f b = f b := by
  simp only [outputs, List.map_cons, List.map_nil, List.mem_cons, List.not_mem_nil, or_false,
    not_or] at h
  rw [written, Function.update_of_ne h.2, Function.update_of_ne h.1]

theorem written_of_not_mem {x : Fixture} {r : Mapped} {n : Text} (h : n ∉ x.outputs) :
    x.written r f n.bytes = f n.bytes :=
  written_of_not_mem_map ((List.mem_map_of_injective Text.bytes_injective).not.2 h)

structure IsIn (x : Fixture) (f : Files) : Prop where
  named : x.Named
  isName : Path.IsName x.name
  isSome : (f x.name.bytes).isSome

end Fixture

theorem KeepsUnmarked.isIn_iff (h : KeepsUnmarked f g) {x : Fixture} : x.IsIn g ↔ x.IsIn f := by
  constructor
  · rintro ⟨hnamed, hname, hfile⟩
    rw [h.eq_of_text hnamed.not_marked] at hfile
    exact ⟨hnamed, hname, hfile⟩
  · rintro ⟨hnamed, hname, hfile⟩
    rw [← h.eq_of_text hnamed.not_marked] at hfile
    exact ⟨hnamed, hname, hfile⟩

theorem Lists.mem_ofNames_iff {names : List Text} (h : Lists f names) {x : Fixture} :
    x ∈ Fixture.ofNames names ↔ x.IsIn f := by
  rw [Fixture.mem_ofNames, h.mem_iff]
  exact ⟨fun ⟨hnamed, hname, hfile⟩ ↦ ⟨hnamed, hname, hfile⟩, fun hx ↦ ⟨hx.1, hx.2, hx.3⟩⟩

theorem Lists.named {names : List Text} (h : Lists f names) :
    ∀ x ∈ Fixture.ofNames names, x.Named ∧ Path.IsName x.name := by
  intro x hx
  have hin := h.mem_ofNames_iff.1 hx
  exact ⟨hin.named, hin.isName⟩

namespace Folder

variable {d : Folder host directory} {x : Fixture} {fixtures : List Fixture}
variable {source n text : Text} {r : Mapped} {s t : σ}

structure CanWrite (d : Folder host directory) (f : Files) (x : Fixture) (source : Text)
    (r : Mapped) : Prop where
  readable : d.readable x.name
  writable : ∀ n ∈ x.outputs, d.writable n
  squeezed : x.squeezed source = .ok r
  source : f x.name.bytes = some source.bytes

/-- The outputs of a fixture are what its source gives. -/
structure UpToDate (d : Folder host directory) (f : Files) (x : Fixture) (source : Text)
    (r : Mapped) : Prop extends d.CanWrite f x source r where
  code : f x.outName.bytes = some r.code.bytes
  map : f x.mapName.bytes = some r.map.bytes

theorem CanWrite.of_eq (h : d.CanWrite f x source r) (hsame : g x.name.bytes = f x.name.bytes) :
    d.CanWrite g x source r where
  readable := h.readable
  writable := h.writable
  squeezed := h.squeezed
  source := hsame.trans h.source

theorem UpToDate.of_eq (h : d.UpToDate f x source r)
    (hsame : ∀ n ∈ x.name :: x.outputs, g n.bytes = f n.bytes) : d.UpToDate g x source r where
  toCanWrite := h.toCanWrite.of_eq (hsame _ (by simp))
  code := by rw [hsame _ (by simp), h.code]
  map := by rw [hsame _ (by simp), h.map]

theorem CanWrite.upToDate_written (h : d.CanWrite f x source r) (hx : x.Named) :
    d.UpToDate (x.written r f) x source r where
  toCanWrite := by
    apply h.of_eq
    apply Fixture.written_of_not_mem
    exact fun hmem ↦ hx.not_marked (hx.marked hmem)
  code := by
    have hne := Text.bytes_injective.ne (hx.outName_ne_mapName hx)
    rw [Fixture.written, Function.update_of_ne hne, Function.update_self]
  map := by rw [Fixture.written, Function.update_self]

theorem UpToDate.written_eq (h : d.UpToDate f x source r) : x.written r f = f := by
  rw [Fixture.written, ← h.code, Function.update_eq_self, ← h.map, Function.update_eq_self]

theorem of_ends_writeFixture (hx : x.Named) (hname : Path.IsName x.name)
    (hs : d.files? s = some f) (h : Ends (writeFixture host directory x) s () t) :
    ∃ source r, d.CanWrite f x source r ∧ d.files? t = some (x.written r f) := by
  rw [writeFixture] at h
  simp only [ends_bind, ends_ofSqueeze] at h
  obtain ⟨source, s₁, hread, r, _, ⟨hr, rfl⟩, ⟨⟩, s₂, hcode, ⟨⟩, s₃, hmap, hprint⟩ := h
  obtain ⟨hreadable, hsource, hs₁⟩ := of_ends_read hs hname hread
  obtain ⟨hout, hs₂⟩ := of_ends_write hs₁ (hx.isName hname (by simp)) hcode
  obtain ⟨hmapName, hs₃⟩ := of_ends_write hs₂ (hx.isName hname (by simp)) hmap
  refine ⟨source, r, ⟨hreadable, ?_, hr, hsource⟩, (gives_printLine.files?_of_ends hs₃ hprint).2⟩
  simp [hout, hmapName]

theorem CanWrite.gives_writeFixture (h : d.CanWrite f x source r) (hx : x.Named)
    (hname : Path.IsName x.name) :
    d.Gives (writeFixture host directory x) f () (x.written r f) := by
  rw [writeFixture]
  refine (gives_read hname h.readable h.source).bind ?_
  refine (gives_ofSqueeze h.squeezed).bind ?_
  refine (gives_write (hx.isName hname (by simp)) (h.writable _ (by simp))).bind ?_
  refine (gives_write (hx.isName hname (by simp)) (h.writable _ (by simp))).bind ?_
  exact gives_printLine

theorem gives_differs (hn : Path.IsName n) (hreadable : d.readable n)
    (htext : f n.bytes = some text.bytes) :
    d.Gives (differs host (Path.join directory n) text) f false f := by
  intro s hs
  obtain ⟨t, hrun, ht⟩ := perform_read hs hn hreadable htext
  refine ⟨t, ?_, ht⟩
  rw [differs, ends_bind]
  exact ⟨_, t, ends_lift.2 hrun, ends_pure.2 ⟨bne_self_eq_false _, rfl⟩⟩

theorem UpToDate.gives_mismatches (h : d.UpToDate f x source r) (hx : x.Named)
    (hname : Path.IsName x.name) : d.Gives (mismatches host directory x) f [] f := by
  have hthere {n text : Text} (hn : n ∈ x.outputs) (htext : f n.bytes = some text.bytes) :
      d.Gives (liftM (host.isThere (Path.join directory n))) f true f :=
    gives_isThere (hx.isName hname hn) htext
  have hsame {n text : Text} (hn : n ∈ x.outputs) (htext : f n.bytes = some text.bytes) :
      d.Gives (differs host (Path.join directory n) text) f false f :=
    gives_differs (hx.isName hname hn) (d.readable_of_writable n (h.writable n hn)) htext
  rw [mismatches]
  refine (gives_read hname h.readable h.source).bind ?_
  refine (gives_ofSqueeze h.squeezed).bind ?_
  refine (hthere (by simp) h.code).bind ?_
  refine (hsame (by simp) h.code).bind ?_
  refine gives_pure.bind ?_
  refine (hthere (by simp) h.map).bind ?_
  refine (hsame (by simp) h.map).bind ?_
  exact gives_pure.bind gives_pure

theorem of_ends_writeEach (hfixtures : ∀ x ∈ fixtures, x.Named ∧ Path.IsName x.name)
    (hnodup : fixtures.Nodup) (hs : d.files? s = some f)
    (h : Ends (writeEach host directory fixtures) s () t) :
    ∃ g, d.files? t = some g ∧ (∀ x ∈ fixtures, ∃ source r, d.UpToDate g x source r) ∧
      ∀ n, n ∉ (fixtures.flatMap Fixture.outputs).map Text.bytes → g n = f n := by
  induction fixtures generalizing s f with
  | nil =>
    obtain ⟨-, rfl⟩ := ends_pure.1 h
    exact ⟨f, hs, by simp, fun _ _ ↦ rfl⟩
  | cons x fixtures ih =>
    obtain ⟨hx, hrest⟩ := List.forall_mem_cons.1 hfixtures
    obtain ⟨hnew, hnodup⟩ := List.nodup_cons.1 hnodup
    rw [writeEach, ends_bind] at h
    obtain ⟨⟨⟩, s₁, hwrite, hend⟩ := h
    obtain ⟨source, r, hcan, hs₁⟩ := of_ends_writeFixture hx.1 hx.2 hs hwrite
    obtain ⟨g, ht, hups, hkeeps⟩ := ih hrest hnodup hs₁ hend
    have hother : ∀ n ∈ x.name :: x.outputs, n ∉ fixtures.flatMap Fixture.outputs := by
      intro n hn hmem
      obtain ⟨y, hy, hny⟩ := List.mem_flatMap.1 hmem
      rcases List.mem_cons.1 hn with rfl | hn
      · exact hx.1.not_marked ((hrest y hy).1.marked hny)
      · obtain rfl := hx.1.eq_of_mem_outputs (hrest y hy).1 hn hny
        exact hnew hy
    have hup := hcan.upToDate_written hx.1
    refine ⟨g, ht, List.forall_mem_cons.2 ⟨⟨source, r, hup.of_eq ?_⟩, hups⟩, ?_⟩
    · intro n hn
      apply hkeeps
      rw [List.mem_map_of_injective Text.bytes_injective]
      exact hother n hn
    · intro n hn
      rw [List.flatMap_cons, List.map_append, List.mem_append, not_or] at hn
      rw [hkeeps n hn.2, Fixture.written_of_not_mem_map hn.1]

theorem exists_gives_writeEach (hfixtures : ∀ x ∈ fixtures, x.Named ∧ Path.IsName x.name)
    (hcan : ∀ x ∈ fixtures, ∃ source r, d.CanWrite f x source r) :
    ∃ g, d.Gives (writeEach host directory fixtures) f () g := by
  induction fixtures generalizing f with
  | nil => exact ⟨f, gives_pure⟩
  | cons x fixtures ih =>
    obtain ⟨hx, hrest⟩ := List.forall_mem_cons.1 hfixtures
    obtain ⟨⟨source, r, hcan₁⟩, hcan⟩ := List.forall_mem_cons.1 hcan
    have hcan' : ∀ y ∈ fixtures, ∃ source r', d.CanWrite (x.written r f) y source r' := by
      intro y hy
      obtain ⟨source', r', hcan₂⟩ := hcan y hy
      refine ⟨source', r', hcan₂.of_eq (Fixture.written_of_not_mem fun hmem ↦ ?_)⟩
      exact (hrest y hy).1.not_marked (hx.1.marked hmem)
    obtain ⟨g, hg⟩ := ih hrest hcan'
    exact ⟨g, (hcan₁.gives_writeFixture hx.1 hx.2).bind hg⟩

theorem gives_writeEach (hfixtures : ∀ x ∈ fixtures, x.Named ∧ Path.IsName x.name)
    (hup : ∀ x ∈ fixtures, ∃ source r, d.UpToDate f x source r) :
    d.Gives (writeEach host directory fixtures) f () f := by
  induction fixtures with
  | nil => exact gives_pure
  | cons x fixtures ih =>
    obtain ⟨hx, hrest⟩ := List.forall_mem_cons.1 hfixtures
    obtain ⟨⟨source, r, hx'⟩, hrest'⟩ := List.forall_mem_cons.1 hup
    have hwrite := hx'.gives_writeFixture hx.1 hx.2
    rw [hx'.written_eq] at hwrite
    exact hwrite.bind (ih hrest hrest')

theorem gives_validateEach (hfixtures : ∀ x ∈ fixtures, x.Named ∧ Path.IsName x.name)
    (hup : ∀ x ∈ fixtures, ∃ source r, d.UpToDate f x source r) :
    d.Gives (validateEach host directory fixtures) f [] f := by
  induction fixtures with
  | nil => exact gives_pure
  | cons x fixtures ih =>
    obtain ⟨hx, hrest⟩ := List.forall_mem_cons.1 hfixtures
    obtain ⟨⟨source, r, hx'⟩, hrest'⟩ := List.forall_mem_cons.1 hup
    rw [validateEach]
    refine (hx'.gives_mismatches hx.1 hx.2).bind ?_
    rw [if_pos rfl]
    exact gives_printLine.bind ((ih hrest hrest').bind gives_pure)

def AllUpToDate (d : Folder host directory) (f : Files) : Prop :=
  ∀ x : Fixture, x.IsIn f → ∃ source r, d.UpToDate f x source r

theorem AllUpToDate.of_lists {names : List Text} (hup : d.AllUpToDate f) (h : Lists f names) :
    ∀ x ∈ Fixture.ofNames names, ∃ source r, d.UpToDate f x source r :=
  fun x hx ↦ hup x (h.mem_ofNames_iff.1 hx)

theorem AllUpToDate.gives_writeFixtures (hup : d.AllUpToDate f) :
    d.Gives (writeFixtures host directory) f () f := by
  rw [writeFixtures]
  refine gives_filesIn_bind fun names hlists ↦ ?_
  refine gives_printLine.bind ?_
  rw [forIn_writeFixture]
  refine (gives_writeEach hlists.named (hup.of_lists hlists)).bind ?_
  exact gives_printLine

theorem AllUpToDate.gives_validateFixtures (hup : d.AllUpToDate f) :
    d.Gives (validateFixtures host directory) f () f := by
  rw [validateFixtures]
  refine gives_filesIn_bind fun names hlists ↦ ?_
  refine gives_printLine.bind ?_
  refine (gives_validateEach hlists.named (hup.of_lists hlists)).bind ?_
  rw [if_pos rfl]
  exact gives_printLine

theorem of_ends_writeFixtures (hs : d.files? s = some f)
    (h : Ends (writeFixtures host directory) s () t) :
    ∃ g, d.files? t = some g ∧ d.AllUpToDate g ∧ KeepsUnmarked f g := by
  rw [writeFixtures] at h
  simp only [ends_bind, forIn_writeFixture] at h
  obtain ⟨names, s₁, hread, ⟨⟩, s₂, hprint, ⟨⟩, s₃, hwrite, hend⟩ := h
  obtain ⟨hlists, hs₁⟩ := of_ends_filesIn hs hread
  have hs₂ := (gives_printLine.files?_of_ends hs₁ hprint).2
  obtain ⟨g, hs₃, hup, hkeeps⟩ :=
    of_ends_writeEach hlists.named (Fixture.nodup_ofNames hlists.nodup) hs₂ hwrite
  have hunmarked : KeepsUnmarked f g := by
    intro n hn
    apply hkeeps
    rw [List.mem_map]
    rintro ⟨name, hmem, rfl⟩
    obtain ⟨x, hx, hname⟩ := List.mem_flatMap.1 hmem
    exact hn name ((hlists.named x hx).1.marked hname) rfl
  refine ⟨g, (gives_printLine.files?_of_ends hs₃ hend).2, ?_, hunmarked⟩
  intro x hx
  apply hup x
  exact hlists.mem_ofNames_iff.2 (hunmarked.isIn_iff.1 hx)

theorem exists_gives_writeFixtures {names : List Text} (hlists : Lists f names)
    (hcan : ∀ x : Fixture, x.IsIn f → ∃ source r, d.CanWrite f x source r) :
    ∃ g, d.Gives (writeFixtures host directory) f () g := by
  obtain ⟨g, hg⟩ := exists_gives_writeEach hlists.named
    fun x hx ↦ hcan x (hlists.mem_ofNames_iff.1 hx)
  have hkeeps : KeepsUnmarked f f := fun _ _ ↦ rfl
  refine ⟨g, ?_⟩
  rw [writeFixtures]
  refine gives_filesIn_bind fun names' hlists' ↦ ?_
  refine gives_printLine.bind ?_
  rw [forIn_writeFixture, hkeeps.ofNames_eq hlists' hlists]
  exact hg.bind gives_printLine

/-- A run that writes comes to its end exactly if all fixtures can be written: a write made on the
way does not matter to a later source. -/
theorem exists_ends_writeFixtures_iff (hs : d.files? s = some f) :
    (∃ t, Ends (writeFixtures host directory) s () t) ↔
      ∀ x : Fixture, x.IsIn f → ∃ source r, d.CanWrite f x source r := by
  constructor
  · rintro ⟨t, h⟩ x hx
    obtain ⟨g, -, hup, hunmarked⟩ := of_ends_writeFixtures hs h
    obtain ⟨source, r, hx'⟩ := hup x (hunmarked.isIn_iff.2 hx)
    exact ⟨source, r, hx'.toCanWrite.of_eq (hunmarked.eq_of_text hx.named.not_marked).symm⟩
  · intro hcan
    obtain ⟨names, -, -, -, hlists⟩ := d.filesIn s f hs
    obtain ⟨g, hg⟩ := exists_gives_writeFixtures hlists hcan
    obtain ⟨t, ht, -⟩ := hg s hs
    exact ⟨t, ht⟩

end Folder

def FixturesAt (host : Host (StateM σ)) (directory : Text) (s : σ) (fixtures : List Fixture) :
    Prop :=
  ∃ names t, perform (host.filesIn directory) s = (.ok names, t) ∧
    Fixture.ofNames names = fixtures

/-- When a run that writes succeeds, the fixtures of the directory are the same as before, none with
a changed source and each with outputs of its own, which are what its source gives. Comparing them
finds nothing wrong, and writing them once more changes nothing. -/
theorem written_fixtures_validate (d : Folder host directory) {writing checking : List Text}
    {before : Files} {s s' : σ}
    (hwriting : DirectoryOptions.ofArguments? writing = some ⟨true, directory⟩)
    (hchecking : DirectoryOptions.ofArguments? checking = some ⟨false, directory⟩)
    (hs : d.files? s = some before)
    (hrun : perform (directoryStatus host writing) s = (0, s')) :
    ∃ after fixtures, d.files? s' = some after ∧ FixturesAt host directory s fixtures ∧
      (∀ n, ¬ Fixture.outMark.bytes <:+: n → after n = before n) ∧
      (∀ x ∈ fixtures, ∃ source r, before x.name.bytes = some source.bytes ∧
        d.UpToDate after x source r) ∧
      (fixtures.flatMap fun x ↦
        [Path.join directory x.outName, Path.join directory x.mapName]).Nodup ∧
      ∀ t, d.files? t = some after →
        FixturesAt host directory t fixtures ∧
        (∃ u, Ends (validateEach host directory fixtures) t [] u) ∧
        (∃ u, perform (directoryStatus host checking) t = (0, u) ∧ d.files? u = some after) ∧
        ∃ u, perform (directoryStatus host writing) t = (0, u) ∧ d.files? u = some after := by
  have hwrites : directoryStatus host writing = status host (writeFixtures host directory) := by
    rw [directoryStatus, hwriting]
    rfl
  have hchecks : directoryStatus host checking = status host (validateFixtures host directory) := by
    rw [directoryStatus, hchecking]
    rfl
  rw [hwrites, status_eq_zero_iff] at hrun
  obtain ⟨after, hs', hup, hunmarked⟩ := Folder.of_ends_writeFixtures hs hrun
  obtain ⟨names, s₁, hnames, -, hlists⟩ := d.filesIn s before hs
  refine ⟨after, Fixture.ofNames names, hs', ⟨names, s₁, hnames, rfl⟩,
    fun n hn ↦ hunmarked.eq_of_bytes hn, fun x hx ↦ ?_, ?_, fun t ht ↦ ?_⟩
  · have hin := hlists.mem_ofNames_iff.1 hx
    obtain ⟨source, r, hx'⟩ := hup x (hunmarked.isIn_iff.2 hin)
    have hsame := hunmarked.eq_of_text hin.named.not_marked
    exact ⟨source, r, hsame ▸ hx'.source, hx'⟩
  · have hnodup := (Fixture.nodup_flatMap_outputs hlists.nodup).map
      (Path.join_injective directory)
    rwa [List.map_flatMap] at hnodup
  · -- Only marked names are new, so the directory offers the same fixtures again.
    obtain ⟨names', t₁, hnames', -, hlists'⟩ := d.filesIn t after ht
    have hsame := hunmarked.ofNames_eq hlists hlists'
    rw [hwrites, hchecks]
    simp only [status_eq_zero_iff]
    refine ⟨⟨names', t₁, hnames', hsame.symm⟩, ?_, hup.gives_validateFixtures t ht,
      hup.gives_writeFixtures t ht⟩
    rw [hsame]
    obtain ⟨u, hu, -⟩ := Folder.gives_validateEach hlists'.named (hup.of_lists hlists') t ht
    exact ⟨u, hu⟩

/-- Two sources, of which one has an output that is out of date. -/
def staleOutput : Memory where
  files :=
    [(["fixtures".toList, ".v1.ts".toList], "".toList),
      (["fixtures".toList, ".v1.out.ts".toList], "stale".toList),
      (["fixtures".toList, "a.js".toList], "1".toList)]

theorem mem_ways_staleOutput {w : List Text} : w ∈ staleOutput.ways ↔
    w = ["fixtures".toList, ".v1.ts".toList] ∨ w = ["fixtures".toList, ".v1.out.ts".toList] ∨
      w = ["fixtures".toList, "a.js".toList] := by
  simp only [Memory.ways, staleOutput, List.map_cons, List.map_nil, List.mem_cons,
    List.not_mem_nil, or_false]

theorem flat_staleOutput : staleOutput.Flat ["fixtures".toList] where
  isDirectory := by decide
  nodup := by decide
  isName := by
    intro w hw _
    rcases mem_ways_staleOutput.1 hw with rfl | rfl | rfl
    · exact ⟨_, by decide, rfl⟩
    · exact ⟨_, by decide, rfl⟩
    · exact ⟨_, by decide, rfl⟩

theorem filesOf?_staleOutput : Memory.filesOf? "fixtures".toList staleOutput =
    some (staleOutput.filesAt ["fixtures".toList]) :=
  Memory.filesOf?_eq_some.2 ⟨_, by decide +kernel, flat_staleOutput, rfl⟩

def dottedSource : Fixture :=
  ⟨".v1.ts".toList, .ts, ".v1.out.ts".toList, ".v1.out.ts.map".toList⟩

def plainSource : Fixture := ⟨"a.js".toList, .js, "a.out.js".toList, "a.out.js.map".toList⟩

theorem squeezed_dottedSource : dottedSource.squeezed [] = .ok
    ⟨[], "\x7b\"version\":3,\"sources\":[\".v1.ts\"],\"sourcesContent\":[\"\"],".toList ++
      "\"names\":[],\"mappings\":\"\"\x7d".toList⟩ := by
  cbv

theorem squeezed_plainSource : plainSource.squeezed "1".toList = .ok
    ⟨"1".toList, "\x7b\"version\":3,\"sources\":[\"a.js\"],\"sourcesContent\":[\"1\"],".toList ++
      "\"names\":[],\"mappings\":\"AAAA\"\x7d".toList⟩ := by
  cbv

theorem canWrite_staleOutput {x : Fixture} (hx : x.IsIn (staleOutput.filesAt ["fixtures".toList])) :
    ∃ source r, (Memory.folder "fixtures".toList).CanWrite
      (staleOutput.filesAt ["fixtures".toList]) x source r := by
  have hway := hx.isSome
  rw [Memory.filesAt_bytes, Option.isSome_map, Memory.isSome_fileAt?_iff, mem_ways_staleOutput]
    at hway
  simp only [List.singleton_append, List.cons.injEq, and_true, true_and] at hway
  have hnamed := hx.named
  have hunmarked := hx.named.not_marked
  rw [Fixture.Named] at hnamed
  rcases hway with hname | hname | hname
  · rw [hname] at hnamed
    obtain rfl : x = dottedSource := Option.some.inj (hnamed.symm.trans (by decide))
    refine ⟨_, _, ⟨trivial, fun _ _ ↦ trivial, squeezed_dottedSource, ?_⟩⟩
    rw [Memory.filesAt_bytes]
    decide
  · rw [hname] at hunmarked
    exact absurd (by decide) hunmarked
  · rw [hname] at hnamed
    obtain rfl : x = plainSource := Option.some.inj (hnamed.symm.trans (by decide))
    refine ⟨_, _, ⟨trivial, fun _ _ ↦ trivial, squeezed_plainSource, ?_⟩⟩
    rw [Memory.filesAt_bytes]
    decide

theorem isIn_staleOutput {x : Fixture} (h : x ∈ [dottedSource, plainSource]) :
    x.IsIn (staleOutput.filesAt ["fixtures".toList]) := by
  simp only [List.mem_cons, List.not_mem_nil, or_false] at h
  rcases h with rfl | rfl
  all_goals
    refine ⟨by rw [Fixture.Named]; decide, by decide, ?_⟩
    rw [Memory.filesAt_bytes]
    decide

theorem written_fixtures_validate_staleOutput :
    DirectoryOptions.ofArguments? ["--write".toList] = some ⟨true, "fixtures".toList⟩ ∧
    DirectoryOptions.ofArguments? [] = some ⟨false, "fixtures".toList⟩ ∧
    ∃ before s' after u, Memory.filesOf? "fixtures".toList staleOutput = some before ∧
      perform (directoryStatus Memory.host ["--write".toList]) staleOutput = (0, s') ∧
      Memory.filesOf? "fixtures".toList s' = some after ∧
      before (Text.bytes ".v1.out.ts".toList) = some (Text.bytes "stale".toList) ∧
      after (Text.bytes ".v1.out.ts".toList) = some [] ∧
      before (Text.bytes "a.out.js".toList) = none ∧
      after (Text.bytes "a.out.js".toList) = some (Text.bytes "1".toList) ∧
      after (Text.bytes "a.js".toList) = some (Text.bytes "1".toList) ∧
      perform (directoryStatus Memory.host []) s' = (0, u) ∧
      Memory.filesOf? "fixtures".toList u = some after := by
  have hwriting : DirectoryOptions.ofArguments? ["--write".toList] =
      some ⟨true, "fixtures".toList⟩ := by decide +kernel
  have hchecking : DirectoryOptions.ofArguments? [] = some ⟨false, "fixtures".toList⟩ := by
    decide +kernel
  obtain ⟨s', hend⟩ := (Folder.exists_ends_writeFixtures_iff (d := Memory.folder "fixtures".toList)
    filesOf?_staleOutput).2 fun x hx ↦ canWrite_staleOutput hx
  have hrun : perform (directoryStatus Memory.host ["--write".toList]) staleOutput = (0, s') := by
    rw [directoryStatus, hwriting]
    exact status_eq_zero_iff.2 hend
  obtain ⟨after, fixtures, hafter, ⟨names, t, hnames, rfl⟩, hkept, hwritten, -, hagain⟩ :=
    written_fixtures_validate (Memory.folder "fixtures".toList) hwriting hchecking
      filesOf?_staleOutput hrun
  obtain ⟨names', t', hnames', -, hlists⟩ :=
    (Memory.folder "fixtures".toList).filesIn staleOutput _ filesOf?_staleOutput
  obtain rfl : names = names' := by
    rw [hnames] at hnames'
    cases hnames'
    rfl
  have houtput : ∀ {x text r}, x ∈ [dottedSource, plainSource] →
      staleOutput.filesAt ["fixtures".toList] x.name.bytes = some (Text.bytes text) →
      x.squeezed text = .ok r → after x.outName.bytes = some r.code.bytes := by
    intro x text r hx htext hr
    obtain ⟨source, r', hsource, hup⟩ :=
      hwritten x (hlists.mem_ofNames_iff.2 (isIn_staleOutput hx))
    obtain rfl := Text.bytes_injective (Option.some.inj (hsource.symm.trans htext))
    obtain rfl := Except.ok.inj (hup.squeezed.symm.trans hr)
    exact hup.code
  obtain ⟨-, -, ⟨u, hu, hu'⟩, -⟩ := hagain s' hafter
  have hsource : after (Text.bytes "a.js".toList) = some (Text.bytes "1".toList) := by
    rw [hkept _ (by decide), Memory.filesAt_bytes]
    decide
  refine ⟨hwriting, hchecking, _, s', after, u, filesOf?_staleOutput, hrun, hafter, ?_,
    houtput (by simp) ?_ squeezed_dottedSource, ?_, houtput (by simp) ?_ squeezed_plainSource,
    hsource, hu, hu'⟩
  all_goals
    rw [Memory.filesAt_bytes]
    decide

end TemplateSqueeze.Command
