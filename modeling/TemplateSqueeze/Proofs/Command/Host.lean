import Mathlib.Logic.Function.Basic
import TemplateSqueeze.Proofs.Command.Names

namespace TemplateSqueeze.Command

variable {σ α β : Type}

def perform (action : StateM σ α) (s : σ) : α × σ := action.run s

theorem perform_bind (action : StateM σ α) (next : α → StateM σ β) (s : σ) :
    perform (action >>= next) s = perform (next (perform action s).1) (perform action s).2 := rfl

/-- What the files of a directory hold, by the bytes of their names. -/
abbrev Files := List UInt8 → Option (List UInt8)

structure Lists (f : Files) (names : List Text) : Prop where
  nodup : names.Nodup
  mem_iff : ∀ n, n ∈ names ↔ Path.IsName n ∧ (f n.bytes).isSome

/-- A directory as a host keeps it. A file that can be read gives back the text that its bytes are,
what was written can be read again, and a write changes no file but its own. -/
structure Folder (host : Host (StateM σ)) (directory : Text) where
  files? : σ → Option Files
  readable : Text → Prop
  writable : Text → Prop
  readable_of_writable : ∀ n, writable n → readable n
  read : ∀ s f n, files? s = some f → Path.IsName n → ∃ r s',
    perform (host.read (Path.join directory n)) s = (r, s') ∧ files? s' = some f ∧
      ∀ t, r = .ok t ↔ readable n ∧ f n.bytes = some t.bytes
  write : ∀ s f n t, files? s = some f → Path.IsName n → ∃ r s',
    perform (host.write (Path.join directory n) t) s = (r, s') ∧ (r = .ok () ↔ writable n) ∧
      (r = .ok () → files? s' = some (Function.update f n.bytes (some t.bytes)))
  isThere : ∀ s f n, files? s = some f → Path.IsName n → (f n.bytes).isSome → ∃ s',
    perform (host.isThere (Path.join directory n)) s = (true, s') ∧ files? s' = some f
  filesIn : ∀ s f, files? s = some f → ∃ names s',
    perform (host.filesIn directory) s = (.ok names, s') ∧ files? s' = some f ∧ Lists f names
  print : ∀ s t, files? (perform (host.print t) s).2 = files? s
  warn : ∀ s t, files? (perform (host.warn t) s).2 = files? s

namespace Run

def outcome (x : Run (StateM σ) α) (s : σ) : Except Failure α × σ := perform x.run s

/-- From `s` the run comes to its end with `a`, in the state `t`. -/
def Ends (x : Run (StateM σ) α) (s : σ) (a : α) (t : σ) : Prop := outcome x s = (.ok a, t)

variable {host : Host (StateM σ)} {s t : σ} {a b : α}

@[simp] theorem ends_pure : Ends (pure a) s b t ↔ a = b ∧ s = t := by
  have hrun : outcome (pure a : Run (StateM σ) α) s = (.ok a, s) := rfl
  simp [Ends, hrun]

theorem not_ends_throw {e : Failure} : ¬ Ends (throw e) s b t := by
  have hrun : outcome (throw e : Run (StateM σ) α) s = (.error e, s) := rfl
  simp [Ends, hrun]

theorem outcome_bind (x : Run (StateM σ) α) (k : α → Run (StateM σ) β) (s : σ) :
    outcome (x >>= k) s =
      match outcome x s with
      | (.ok a, u) => outcome (k a) u
      | (.error e, u) => (.error e, u) := by
  change outcome (ExceptT.mk (x.run >>= ExceptT.bindCont k)) s = _
  rw [outcome, ExceptT.run_mk, perform_bind]
  change perform (ExceptT.bindCont k (outcome x s).1) (outcome x s).2 = _
  rcases outcome x s with ⟨_ | _, _⟩
  · rfl
  · rfl

theorem ends_bind {x : Run (StateM σ) α} {k : α → Run (StateM σ) β} {c : β} :
    Ends (x >>= k) s c t ↔ ∃ a u, Ends x s a u ∧ Ends (k a) u c t := by
  rw [Ends, outcome_bind]
  unfold Ends
  rcases outcome x s with ⟨_ | _, _⟩
  · simp
  · simp

theorem ends_lift {x : StateM σ α} : Ends (liftM x) s a t ↔ perform x s = (a, t) := by
  have hrun : outcome (liftM x) s = (.ok (perform x s).1, (perform x s).2) := rfl
  rw [Ends, hrun, Prod.mk.injEq, Except.ok.injEq, Prod.ext_iff]

theorem ends_attempt {action : StateM σ (Except SystemError α)} :
    Ends (attempt action) s a t ↔ perform action s = (.ok a, t) := by
  rw [attempt, ends_bind]
  simp only [ends_lift]
  constructor
  · rintro ⟨r, u, hr, h⟩
    cases r with
    | ok b =>
      obtain ⟨rfl, rfl⟩ := ends_pure.1 h
      exact hr
    | error e => exact absurd h not_ends_throw
  · intro h
    exact ⟨.ok a, t, h, ends_pure.2 ⟨rfl, rfl⟩⟩

theorem ends_ofSqueeze {r : Except SqueezeError α} :
    Ends (ofSqueeze r) s a t ↔ r = .ok a ∧ s = t := by
  cases r with
  | ok b => simp [ofSqueeze]
  | error e => simp [ofSqueeze, not_ends_throw]

theorem ends_printLine {line : Text} {u : Unit} : Ends (printLine host line) s u t ↔
    (perform (host.print (line ++ ['\n'])) s).2 = t := by
  change Ends (liftM (host.print (line ++ ['\n']))) s u t ↔ _
  rw [ends_lift, Prod.ext_iff]
  exact and_iff_right rfl

theorem status_eq_zero_iff {run : Run (StateM σ) Unit} :
    perform (status host run) s = (0, t) ↔ Ends run s () t := by
  have hrun : perform run s = outcome run s := rfl
  rw [status, perform_bind, hrun, Ends]
  rcases outcome run s with ⟨e | ⟨⟩, u⟩
  · change ((1 : Nat), _) = (0, t) ↔ (Except.error e, u) = (.ok (), t)
    simp
  · change ((0 : Nat), u) = (0, t) ↔ (Except.ok (), u) = (.ok (), t)
    simp

end Run

open Run

namespace Folder

variable {host : Host (StateM σ)} {directory : Text} {d : Folder host directory} {f g h : Files}
variable {x : Run (StateM σ) α} {k : α → Run (StateM σ) β} {a : α} {b : β} {n text : Text} {s t : σ}

/-- Whatever else is in the state, from the files `f` the run comes to its end with `a` and the
files `g`. -/
def Gives (d : Folder host directory) (x : Run (StateM σ) α) (f : Files) (a : α) (g : Files) :
    Prop :=
  ∀ s, d.files? s = some f → ∃ t, Ends x s a t ∧ d.files? t = some g

theorem gives_pure : d.Gives (pure a) f a f := fun s hs ↦ ⟨s, ends_pure.2 ⟨rfl, rfl⟩, hs⟩

theorem Gives.bind (hx : d.Gives x f a g) (hk : d.Gives (k a) g b h) :
    d.Gives (x >>= k) f b h := by
  intro s hs
  obtain ⟨t, ht, hg⟩ := hx s hs
  obtain ⟨u, hu, hh⟩ := hk t hg
  exact ⟨u, ends_bind.2 ⟨a, t, ht, hu⟩, hh⟩

theorem gives_ofSqueeze {r : Except SqueezeError α} (hr : r = .ok a) :
    d.Gives (ofSqueeze r) f a f :=
  fun s hs ↦ ⟨s, ends_ofSqueeze.2 ⟨hr, rfl⟩, hs⟩

theorem gives_printLine {line : Text} : d.Gives (printLine host line) f () f := by
  intro s hs
  refine ⟨_, ends_printLine.2 rfl, ?_⟩
  rw [d.print, hs]

theorem of_ends_read (hs : d.files? s = some f) (hn : Path.IsName n)
    (h : Ends (attempt (host.read (Path.join directory n))) s text t) :
    d.readable n ∧ f n.bytes = some text.bytes ∧ d.files? t = some f := by
  obtain ⟨r, t', hrun, ht, hr⟩ := d.read s f n hs hn
  rw [ends_attempt, hrun, Prod.mk.injEq] at h
  obtain ⟨rfl, rfl⟩ := h
  exact ⟨((hr text).1 rfl).1, ((hr text).1 rfl).2, ht⟩

theorem perform_read (hs : d.files? s = some f) (hn : Path.IsName n) (hreadable : d.readable n)
    (htext : f n.bytes = some text.bytes) : ∃ t,
      perform (host.read (Path.join directory n)) s = (.ok text, t) ∧ d.files? t = some f := by
  obtain ⟨r, t, hrun, ht, hr⟩ := d.read s f n hs hn
  obtain rfl := (hr text).2 ⟨hreadable, htext⟩
  exact ⟨t, hrun, ht⟩

theorem gives_read (hn : Path.IsName n) (hreadable : d.readable n)
    (htext : f n.bytes = some text.bytes) :
    d.Gives (attempt (host.read (Path.join directory n))) f text f := by
  intro s hs
  obtain ⟨t, hrun, ht⟩ := perform_read hs hn hreadable htext
  exact ⟨t, ends_attempt.2 hrun, ht⟩

theorem of_ends_write (hs : d.files? s = some f) (hn : Path.IsName n)
    (h : Ends (attempt (host.write (Path.join directory n) text)) s () t) :
    d.writable n ∧ d.files? t = some (Function.update f n.bytes (some text.bytes)) := by
  obtain ⟨r, t', hrun, hr, ht⟩ := d.write s f n text hs hn
  rw [ends_attempt, hrun, Prod.mk.injEq] at h
  obtain ⟨rfl, rfl⟩ := h
  exact ⟨hr.1 rfl, ht rfl⟩

theorem gives_write (hn : Path.IsName n) (hwritable : d.writable n) :
    d.Gives (attempt (host.write (Path.join directory n) text)) f ()
      (Function.update f n.bytes (some text.bytes)) := by
  intro s hs
  obtain ⟨r, t, hrun, hr, ht⟩ := d.write s f n text hs hn
  obtain rfl := hr.2 hwritable
  exact ⟨t, ends_attempt.2 hrun, ht rfl⟩

theorem gives_isThere (hn : Path.IsName n) (htext : f n.bytes = some text.bytes) :
    d.Gives (liftM (host.isThere (Path.join directory n))) f true f := by
  intro s hs
  obtain ⟨t, hrun, ht⟩ := d.isThere s f n hs hn (by rw [htext]; rfl)
  exact ⟨t, ends_lift.2 hrun, ht⟩

theorem of_ends_filesIn {names : List Text} (hs : d.files? s = some f)
    (h : Ends (attempt (host.filesIn directory)) s names t) :
    Lists f names ∧ d.files? t = some f := by
  obtain ⟨names', t', hrun, ht, hlists⟩ := d.filesIn s f hs
  rw [ends_attempt, hrun] at h
  simp only [Prod.mk.injEq, Except.ok.injEq] at h
  obtain ⟨rfl, rfl⟩ := h
  exact ⟨hlists, ht⟩

theorem gives_filesIn_bind {k : List Text → Run (StateM σ) β}
    (hk : ∀ names, Lists f names → d.Gives (k names) f b g) :
    d.Gives (attempt (host.filesIn directory) >>= k) f b g := by
  intro s hs
  obtain ⟨names, t, hrun, ht, hlists⟩ := d.filesIn s f hs
  obtain ⟨u, hu, hg⟩ := hk names hlists t ht
  exact ⟨u, ends_bind.2 ⟨names, t, ends_attempt.2 hrun, hu⟩, hg⟩

theorem Gives.files?_of_ends {c : α} (hx : d.Gives x f a g) (hs : d.files? s = some f)
    (h : Ends x s c t) : c = a ∧ d.files? t = some g := by
  obtain ⟨t', ht', hg⟩ := hx s hs
  rw [Ends, h] at ht'
  simp only [Prod.mk.injEq, Except.ok.injEq] at ht'
  obtain ⟨rfl, rfl⟩ := ht'
  exact ⟨rfl, hg⟩

end Folder

end TemplateSqueeze.Command
