import TemplateSqueeze.Proofs.Json.Reader
import TemplateSqueeze.Proofs.SourceMap.Mappings
import TemplateSqueeze.SourceMap.Read
import TemplateSqueeze.SourceMap.Write

namespace TemplateSqueeze.SourceMap

open Json Json.Reader

variable {known : Option (Text × Text)} {w : Writer} {mappings : Text} {depth : Nat}
  {tokens : List Token}

def contentMembers (count : Nat) : Option (Text × Text) → List Member
  | none => []
  | some (_, content) =>
    [⟨"sourcesContent", bracketed (quoted content :: List.replicate (count - 1) "null".toList),
      .array (.string content :: List.replicate (count - 1) .null)⟩]

def mapMembers (known : Option (Text × Text)) (w : Writer) (mappings : Text) : List Member :=
  ⟨"version", ['3'], .number (.whole 3)⟩ ::
  ⟨"sources", w.sources.text, .array (w.sources.strings.toList.map .string)⟩ ::
  contentMembers w.sources.strings.size known ++
  [⟨"names", w.names.text, .array (w.names.strings.toList.map .string)⟩,
    ⟨"mappings", quoted mappings, .string mappings⟩]

theorem reads_text (t : Interned) :
    Reads (depth + 1) t.text (.array (t.strings.toList.map .string)) := by
  have h : Reads (depth + 1) _ _ :=
    .array (t.strings.toList.map fun s ↦ (quoted s, Value.string s)) fun item hitem ↦ ?_
  · rwa [List.map_map, List.map_map] at h
  · obtain ⟨s, -, rfl⟩ := List.mem_map.1 hitem
    exact .string s

theorem reads_contents (content : Text) (n : Nat) :
    Reads (depth + 1) (bracketed (quoted content :: List.replicate n "null".toList))
      (.array (.string content :: List.replicate n .null)) := by
  have h : Reads (depth + 1) _ _ :=
    .array ((quoted content, Value.string content) :: List.replicate n ("null".toList, .null))
      fun item hitem ↦ ?_
  · rwa [List.map_cons, List.map_replicate, List.map_cons, List.map_replicate] at h
  · rcases List.mem_cons.1 hitem with rfl | hitem
    · exact .string content
    · rw [List.eq_of_mem_replicate hitem]
      exact .null

theorem reads_mapMembers :
    ∀ m ∈ mapMembers known w mappings, Reads (depth + 1) m.text m.value := by
  intro m hm
  rcases List.mem_cons.1 hm with rfl | hm
  · exact .three
  rcases List.mem_cons.1 hm with rfl | hm
  · exact reads_text _
  rcases List.mem_append.1 hm with hm | hm
  · cases known with
    | none => cases hm
    | some known =>
      rw [List.mem_singleton.1 hm]
      exact reads_contents _ _
  rcases List.mem_cons.1 hm with rfl | hm
  · exact reads_text _
  · rw [List.mem_singleton.1 hm]
    exact .string mappings

theorem parse?_map :
    parse? (w.map known mappings) =
      some (.object ((mapMembers known w mappings).map Member.read)) := by
  have hwritten : w.map known mappings =
      braced ((mapMembers known w mappings).map Member.written) := by
    cases known <;> rfl
  rw [hwritten]
  exact parse?_braced _ (List.cons_ne_nil _ _) reads_mapMembers

theorem listOf?_map {α β : Type} {read : Value → Option α} {f : β → Value} {g : β → α}
    (h : ∀ x, read (f x) = some (g x)) (xs : List β) :
    Fields.listOf? read (.array (xs.map f)) = some (xs.map g) := by
  change (xs.map f).mapM read = some (xs.map g)
  induction xs with
  | nil => rfl
  | cons x xs ih => rw [List.map_cons, List.mapM_cons, h, ih]; rfl

theorem has_key_comp_read (key : String) :
    ((decide <| ·.1 = key.toList) ∘ Member.read) = fun m ↦ decide (m.key = key) := by
  funext m
  simp [Member.read, String.toList_inj]

theorem find?_read (ms : List Member) (key : String) :
    (ms.map Member.read).find? (·.1 = key.toList) =
      (ms.find? (·.key = key)).map Member.read := by
  rw [List.find?_map, has_key_comp_read]

theorem filter_read (ms : List Member) (key : String) :
    (ms.map Member.read).filter (·.1 = key.toList) =
      (ms.filter (·.key = key)).map Member.read := by
  rw [List.filter_map, has_key_comp_read]

theorem once_mapMembers :
    Fields.once ((mapMembers known w mappings).map Member.read) Fields.knownKeys = true := by
  simp only [Fields.once, filter_read, List.length_map]
  cases known <;> simp [mapMembers, contentMembers, Fields.knownKeys, List.filter_cons]

theorem optional_of_absent {α : Type} {ms : List Member} {key : String} (read : Value → Option α)
    (h : ms.find? (·.key = key) = none) :
    Fields.optional (ms.map Member.read) key read = some none := by
  rw [Fields.optional, Fields.field?, find?_read, h]
  rfl

theorem optional_of_present {α : Type} {ms : List Member} {key : String} {m : Member}
    {read : Value → Option α} {x : α} (h : ms.find? (·.key = key) = some m) (hm : m.value ≠ .null)
    (hx : read m.value = some x) :
    Fields.optional (ms.map Member.read) key read = some (some x) := by
  rw [Fields.optional, Fields.field?, find?_read, h]
  obtain ⟨key, text, value⟩ := m
  cases value <;> first | exact absurd rfl hm | exact congrArg (Option.map some) hx

theorem optional_sources :
    Fields.optional ((mapMembers known w mappings).map Member.read) "sources"
      (Fields.listOf? (Fields.orNull? Fields.text?)) =
        some (some (w.sources.strings.toList.map some)) := by
  have htext : ∀ s, Fields.orNull? Fields.text? (.string s) = some (some s) := fun _ ↦ rfl
  exact optional_of_present rfl nofun (listOf?_map htext _)

theorem exists_optional_contents (known : Option (Text × Text)) (w : Writer) (mappings : Text) :
    ∃ x, Fields.optional ((mapMembers known w mappings).map Member.read) "sourcesContent"
      (Fields.listOf? (Fields.orNull? Fields.text?)) = some x := by
  cases known with
  | none => exact ⟨none, optional_of_absent _ rfl⟩
  | some known =>
    have hitem : ∀ item : Option Text, Fields.orNull? Fields.text?
        (item.elim .null .string) = some item := by
      rintro (_ | item) <;> rfl
    have hlist := listOf?_map hitem
      (some known.2 :: List.replicate (w.sources.strings.size - 1) none)
    rw [List.map_cons, List.map_replicate] at hlist
    exact ⟨_, optional_of_present rfl nofun hlist⟩

theorem ofValue?_mapMembers :
    Fields.ofValue? (depth + 1) (.object ((mapMembers known w mappings).map Member.read)) =
      some { sources := w.sources.strings.toList.map some
             names := w.names.strings.toList.map .string
             mappings } := by
  have habsent : ∀ key ∈ ["sourceRoot", "sections", "rangeMappings", "ignoreList",
      "x_facebook_offsets", "x_metro_module_paths", "x_facebook_sources", "debugId", "debug_id"],
      (mapMembers known w mappings).find? (·.key = key) = none := by
    cases known <;> simp [mapMembers, contentMembers]
  have hversion : Fields.optional ((mapMembers known w mappings).map Member.read) "version"
      Fields.word? = some (some 3) :=
    optional_of_present rfl nofun rfl
  have hnames : Fields.optional ((mapMembers known w mappings).map Member.read) "names"
      Fields.list? = some (some (w.names.strings.toList.map .string)) := by
    cases known <;> exact optional_of_present rfl nofun rfl
  have hmappings : Fields.optional ((mapMembers known w mappings).map Member.read) "mappings"
      Fields.text? = some (some mappings) := by
    cases known <;> exact optional_of_present rfl nofun rfl
  obtain ⟨x, hcontents⟩ := exists_optional_contents known w mappings
  simp only [List.forall_mem_cons] at habsent
  obtain ⟨hroot, hsections, hranges, hignore, hoffsets, hpaths, hvendor, hid, hid', -⟩ := habsent
  rw [Fields.ofValue?]
  simp only [Fields.members?, Option.bind_eq_bind, Option.bind_some, once_mapMembers, hversion,
    optional_sources, hcontents, hnames, hmappings, optional_of_absent _ hroot,
    optional_of_absent _ hsections, optional_of_absent _ hranges, optional_of_absent _ hignore,
    optional_of_absent _ hoffsets, optional_of_absent _ hpaths, optional_of_absent _ hvendor,
    optional_of_absent _ hid, optional_of_absent _ hid']
  rfl

theorem tables_fields (sources names : List Text) (mappings : Text) :
    Fields.tables { sources := sources.map some, names := names.map .string, mappings } =
      ⟨sources.toArray, names.toArray⟩ := by
  have hrooted : ∀ s, Fields.rooted [] s = s := fun s ↦ if_pos (.inl rfl)
  have hname : Fields.nameOf ∘ Value.string = id := rfl
  simp [Fields.tables, hrooted, hname]

theorem Writer.size_tokens_le (w : Writer) (tokens : List Token) :
    (w.tokens tokens).2.sources.strings.size ≤ w.sources.strings.size + tokens.length ∧
      (w.tokens tokens).2.names.strings.size ≤ w.names.strings.size + tokens.length := by
  induction tokens generalizing w with
  | nil => exact ⟨Nat.le_refl _, Nat.le_refl _⟩
  | cons t ts ih =>
    have hstep : (w.after t).sources.strings.size ≤ w.sources.strings.size + 1 ∧
        (w.after t).names.strings.size ≤ w.names.strings.size + 1 := by
      obtain ⟨position, ⟨line, column, _ | source, _ | name⟩, ranged⟩ := t
      · exact ⟨Nat.le_succ _, Nat.le_succ _⟩
      · exact ⟨Nat.le_succ _, Interned.size_add_le⟩
      · exact ⟨Interned.size_add_le, Nat.le_succ _⟩
      · exact ⟨Interned.size_add_le, Interned.size_add_le⟩
    obtain ⟨hsources, hnames⟩ := ih (w.after t)
    rw [tokens_cons, List.length_cons]
    omega

theorem ordered_eq (hs : Sorted tokens) : ordered tokens = tokens := by
  refine List.mergeSort_of_pairwise (hs.imp fun h ↦ ?_)
  simpa using h

/-- A map is read back to the tokens it was written from, but for repetitions. -/
theorem read_write (known : Option (Text × Text)) (hs : Sorted tokens.eraseReps)
    (ht : ∀ t ∈ tokens.eraseReps, t.Writable) (hlen : tokens.eraseReps.length < wordSize) :
    read (write known tokens) = .ok tokens.eraseReps := by
  have hlines : (tokens.eraseReps.map (·.position.line)).Pairwise (· ≤ ·) := by
    refine List.pairwise_map.2 (hs.imp fun {t u} h ↦ ?_)
    rw [Position.precedes_iff] at h
    omega
  have hstart : ∃ sources : Interned, Writer.start known = { sources } ∧
      sources.strings.size ≤ 1 := by
    cases known with
    | none => exact ⟨{}, rfl, Nat.zero_le 1⟩
    | some known => exact ⟨⟨#[known.1]⟩, rfl, Nat.le_refl 1⟩
  obtain ⟨sources, hstart, hone⟩ := hstart
  obtain ⟨hsources, hnames⟩ := Writer.size_tokens_le { sources } tokens.eraseReps
  have hwithin : (Writer.tokens { sources } tokens.eraseReps).2.Within
      ⟨(Writer.tokens { sources } tokens.eraseReps).2.sources.strings,
        (Writer.tokens { sources } tokens.eraseReps).2.names.strings⟩ := by
    have hfirst : ({ sources } : Writer).sources.strings.size = sources.strings.size := rfl
    have hnone : ({ sources } : Writer).names.strings.size = 0 := rfl
    exact ⟨List.prefix_refl _, List.prefix_refl _, Nat.le_trans hsources (by omega),
      Nat.le_trans hnames (by omega)⟩
  have htokens := tokens_tokens ht hlines hwithin
  rw [write, hstart]
  generalize Writer.tokens { sources } tokens.eraseReps = done at *
  obtain ⟨mappings, w⟩ := done
  have hheader : withoutHeader (w.map known mappings) = .ok (w.map known mappings) := rfl
  simp only [read, hheader, bind, Except.bind, parse?_map, ofValue?_mapMembers, tables_fields,
    Array.toArray_toList]
  rw [if_neg (by decide), htokens]
  exact congrArg Except.ok (ordered_eq hs)

end TemplateSqueeze.SourceMap
