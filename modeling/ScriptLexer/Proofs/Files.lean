import ScriptLexer.Proofs.ExitLaw
import ScriptLexer.Session.FileTree

namespace ScriptLexer

namespace FileTree

/-- The names lead from a place through directories to an entry. -/
inductive Leads (tree : FileTree) : Location → List String → Entry → Prop
  | here {place : Location} {entry : Entry} (found : tree.entry? place = some entry) :
      Leads tree place [] entry
  | through {place next : Location} {name : String} {names : List String} {entry : Entry}
      (directory : tree.entry? place = some .directory) (step : place.enter? name = some next)
      (later : Leads tree next names entry) : Leads tree place (name :: names) entry

/-- Some of the names, but not all of them, lead to a file. -/
def Blocked (tree : FileTree) (place : Location) (names : List String) : Prop :=
  ∃ before name behind bytes, names = before ++ name :: behind ∧ tree.Leads place before (.file bytes)

variable {tree : FileTree} {place next : Location} {name : String} {names : List String} {entry : Entry}

theorem leads_nil_iff : tree.Leads place [] entry ↔ tree.entry? place = some entry := by
  constructor
  · intro leads
    cases leads with
    | here found => exact found
  · exact .here

theorem leads_cons_iff : tree.Leads place (name :: names) entry ↔
    tree.entry? place = some .directory ∧ ∃ next, place.enter? name = some next ∧
      tree.Leads next names entry := by
  constructor
  · intro leads
    cases leads with
    | through directory step later => exact ⟨directory, _, step, later⟩
  · rintro ⟨directory, next, step, later⟩
    exact .through directory step later

theorem not_blocked_nil : ¬tree.Blocked place [] := by
  rintro ⟨before, name, behind, bytes, cut, -⟩
  exact List.append_ne_nil_of_right_ne_nil before (List.cons_ne_nil name behind) cut.symm

theorem blocked_cons_iff : tree.Blocked place (name :: names) ↔
    (∃ bytes, tree.entry? place = some (.file bytes)) ∨ tree.entry? place = some .directory ∧
      ∃ next, place.enter? name = some next ∧ tree.Blocked next names := by
  constructor
  · rintro ⟨before, last, behind, bytes, cut, leads⟩
    cases leads with
    | here found => exact Or.inl ⟨bytes, found⟩
    | through directory step later =>
      obtain ⟨rfl, rest⟩ := List.cons.inj cut
      exact Or.inr ⟨directory, _, step, _, last, behind, bytes, rest, later⟩
  · rintro (⟨bytes, found⟩ | ⟨directory, next, step, before, last, behind, bytes, rfl, leads⟩)
    · exact ⟨[], name, names, bytes, rfl, .here found⟩
    · exact ⟨name :: before, last, behind, bytes, rfl, .through directory step leads⟩

/-- A walk arrives where the names lead. Where they lead to nothing, it tells whether a file was in the
way. -/
theorem walk_cases (tree : FileTree) (place : Location) (names : List String) :
    (∃ entry, tree.walk place names = .ok entry ∧ tree.Leads place names entry) ∨
    (tree.walk place names = .error .notADirectory ∧ tree.Blocked place names) ∨
    (tree.walk place names = .error .notFound ∧ (∀ entry, ¬tree.Leads place names entry) ∧
      ¬tree.Blocked place names) := by
  induction names generalizing place with
  | nil =>
    cases found : tree.entry? place <;> simp [walk, leads_nil_iff, not_blocked_nil, found]
  | cons name names ih =>
    rcases found : tree.entry? place with _ | _ | bytes
    · simp [walk, leads_cons_iff, blocked_cons_iff, found]
    · cases step : place.enter? name with
      | none => simp [walk, leads_cons_iff, blocked_cons_iff, found, step]
      | some next => simpa [walk, leads_cons_iff, blocked_cons_iff, found, step] using ih next
    · simp [walk, leads_cons_iff, blocked_cons_iff, found]

theorem Leads.unique {other : Entry} (leads : tree.Leads place names entry)
    (again : tree.Leads place names other) : entry = other := by
  induction leads with
  | here found => exact Option.some.inj (found.symm.trans (leads_nil_iff.mp again))
  | through _ step _ ih =>
    obtain ⟨-, next, enters, later⟩ := leads_cons_iff.mp again
    obtain rfl := Option.some.inj (step.symm.trans enters)
    exact ih later

theorem Leads.not_blocked (leads : tree.Leads place names entry) : ¬tree.Blocked place names := by
  induction leads with
  | here => exact not_blocked_nil
  | through directory step _ ih =>
    rw [blocked_cons_iff]
    rintro (⟨bytes, file⟩ | ⟨-, next, enters, blocked⟩)
    · cases directory.symm.trans file
    · obtain rfl := Option.some.inj (step.symm.trans enters)
      exact ih blocked

/-- Why a path gives no bytes. -/
inductive Unreadable (tree : FileTree) (path : String) : Fault → Prop
  | nul (member : '\x00' ∈ path.toList) : Unreadable tree path .nulInPath
  | directory {names : List String} (noNul : '\x00' ∉ path.toList) (named : namesOf? path = some names)
      (leads : tree.Leads [] names .directory) : Unreadable tree path .isADirectory
  | blocked {names : List String} (noNul : '\x00' ∉ path.toList) (named : namesOf? path = some names)
      (blocked : tree.Blocked [] names) : Unreadable tree path .notADirectory
  | missing (noNul : '\x00' ∉ path.toList) (nothing : ∀ names, namesOf? path = some names →
      (∀ entry, ¬tree.Leads [] names entry) ∧ ¬tree.Blocked [] names) : Unreadable tree path .notFound

/-- The path has names, and they lead to a file with these bytes. -/
def Contains (tree : FileTree) (path : String) (bytes : Bytes) : Prop :=
  '\x00' ∉ path.toList ∧ ∃ names, namesOf? path = some names ∧ tree.Leads [] names (.file bytes)

theorem Leads.walk_eq (leads : tree.Leads place names entry) : tree.walk place names = .ok entry := by
  rcases tree.walk_cases place names with ⟨other, walks, again⟩ | ⟨-, blocked⟩ | ⟨-, nothing, -⟩
  · rw [walks, leads.unique again]
  · exact absurd blocked leads.not_blocked
  · exact absurd leads (nothing entry)

theorem Blocked.walk_eq (blocked : tree.Blocked place names) :
    tree.walk place names = .error .notADirectory := by
  rcases tree.walk_cases place names with ⟨other, -, leads⟩ | ⟨walks, -⟩ | ⟨-, -, free⟩
  · exact absurd blocked leads.not_blocked
  · exact walks
  · exact absurd blocked free

theorem Contains.read_eq {path : String} {bytes : Bytes} (contains : tree.Contains path bytes) :
    tree.read path = .ok bytes := by
  obtain ⟨noNul, names, named, leads⟩ := contains
  simp [read, noNul, named, leads.walk_eq]

theorem Unreadable.read_eq {path : String} {fault : Fault} (unreadable : tree.Unreadable path fault) :
    tree.read path = .error fault := by
  cases unreadable with
  | nul member => simp [read, member]
  | directory noNul named leads => simp [read, noNul, named, leads.walk_eq]
  | blocked noNul named blocked => simp [read, noNul, named, blocked.walk_eq]
  | missing noNul nothing =>
    cases named : namesOf? path with
    | none => simp [read, noNul, named]
    | some names =>
      obtain ⟨noEntry, free⟩ := nothing names named
      rcases tree.walk_cases [] names with ⟨entry, -, leads⟩ | ⟨-, blocked⟩ | ⟨walks, -⟩
      · exact absurd leads (noEntry entry)
      · exact absurd blocked free
      · simp [read, noNul, named, walks]

/-- A path gives the bytes that it leads to or fails, and never for two reasons. -/
theorem contains_or_unreadable (tree : FileTree) (path : String) :
    (∃ bytes, tree.Contains path bytes) ∨ ∃ fault, tree.Unreadable path fault := by
  by_cases nul : '\x00' ∈ path.toList
  · exact Or.inr ⟨_, .nul nul⟩
  cases named : namesOf? path with
  | none => exact Or.inr ⟨_, .missing nul (by simp [named])⟩
  | some names =>
    rcases tree.walk_cases [] names with ⟨_ | bytes, -, leads⟩ | ⟨-, blocked⟩ | ⟨-, nothing⟩
    · exact Or.inr ⟨_, .directory nul named leads⟩
    · exact Or.inl ⟨bytes, nul, names, named, leads⟩
    · exact Or.inr ⟨_, .blocked nul named blocked⟩
    · exact Or.inr ⟨_, .missing nul (by simpa [named] using nothing)⟩

/-- A path is read as what it leads to, and a fault tells why it leads to no file. -/
theorem read_eq_iff (tree : FileTree) (path : String) :
    (∀ bytes, tree.read path = .ok bytes ↔ tree.Contains path bytes) ∧
      ∀ fault, tree.read path = .error fault ↔ tree.Unreadable path fault := by
  refine ⟨fun bytes => ⟨fun reads => ?_, Contains.read_eq⟩,
    fun fault => ⟨fun fails => ?_, Unreadable.read_eq⟩⟩
  · rcases tree.contains_or_unreadable path with ⟨found, contains⟩ | ⟨fault, unreadable⟩
    · obtain rfl := Except.ok.inj (contains.read_eq.symm.trans reads)
      exact contains
    · cases unreadable.read_eq.symm.trans reads
  · rcases tree.contains_or_unreadable path with ⟨found, contains⟩ | ⟨other, unreadable⟩
    · cases contains.read_eq.symm.trans fails
    · obtain rfl := Except.error.inj (unreadable.read_eq.symm.trans fails)
      exact unreadable

section Writing

variable {path : String} {bytes : Bytes}

theorem addFile_eq (named : namesOf? path = some names) (ends : names.foldlM Location.enter? [] = some place) :
    tree.addFile path bytes =
      ⟨Location.route [] names.dropLast ++ tree.directories, (place, bytes) :: tree.files⟩ := by
  simp [addFile, named, ends, makeWay]

theorem entry?_addFile_self (named : namesOf? path = some names)
    (ends : names.foldlM Location.enter? [] = some place) :
    entry? (tree.addFile path bytes) place = some (.file bytes) := by
  rw [addFile_eq named ends]
  unfold entry?
  simp

theorem lookup_addFile_of_ne (named : namesOf? path = some names)
    (ends : names.foldlM Location.enter? [] = some place) {other : Location} (apart : other ≠ place) :
    (tree.addFile path bytes).files.lookup other = tree.files.lookup other := by
  have different : (other == place) = false := beq_eq_false_iff_ne.mpr apart
  rw [addFile_eq named ends, List.lookup_cons, different]

/-- What is at another place stays there. -/
theorem entry?_addFile_of_ne (named : namesOf? path = some names)
    (ends : names.foldlM Location.enter? [] = some place) {other : Location} (apart : other ≠ place)
    (found : tree.entry? other = some entry) : entry? (tree.addFile path bytes) other = some entry := by
  unfold entry? at found ⊢
  rw [lookup_addFile_of_ne named ends apart, addFile_eq named ends]
  cases file : tree.files.lookup other with
  | some written => rwa [file] at found
  | none =>
    rw [file] at found
    simp only [Option.ite_none_right_eq_some, List.mem_append] at found ⊢
    exact ⟨found.1.imp_right Or.inr, found.2⟩

/-- Directories are made on the way, unless files are there already. -/
theorem entry?_addFile_of_mem_route (named : namesOf? path = some names)
    (ends : names.foldlM Location.enter? [] = some place) {other : Location} (apart : other ≠ place)
    (onTheWay : other ∈ Location.route [] names.dropLast) (free : tree.files.lookup other = none) :
    entry? (tree.addFile path bytes) other = some .directory := by
  unfold entry?
  rw [lookup_addFile_of_ne named ends apart, free, addFile_eq named ends]
  exact if_pos (Or.inr (List.mem_append_left _ onTheWay))

/-- Names lead through directories to the place where they end. -/
theorem leads_of_route (ends : names.foldlM Location.enter? place = some next)
    (way : names ≠ [] → ∀ other ∈ Location.route place names.dropLast,
      tree.entry? other = some .directory)
    (found : tree.entry? next = some entry) : tree.Leads place names entry := by
  induction names generalizing place with
  | nil =>
    obtain rfl : place = next := Option.some.inj ends
    exact .here found
  | cons name names ih =>
    obtain ⟨middle, step, later⟩ := Option.bind_eq_some_iff.mp ends
    have onTheWay := way (List.cons_ne_nil name names)
    cases names with
    | nil => exact .through (onTheWay place (List.mem_singleton_self place)) step (ih later (absurd rfl))
    | cons second names =>
      rw [List.dropLast_cons_cons, Location.route, step] at onTheWay
      obtain ⟨here, others⟩ := List.forall_mem_cons.mp onTheWay
      exact .through here step (ih later fun _ => others)

/-- A file that is written is read back, if no file is in the way of it. -/
theorem contains_addFile (noNul : '\x00' ∉ path.toList) (named : namesOf? path = some names)
    (ends : names.foldlM Location.enter? [] = some place)
    (free : ∀ other ∈ Location.route [] names.dropLast, other ≠ place ∧ tree.files.lookup other = none) :
    (tree.addFile path bytes).Contains path bytes := by
  refine ⟨noNul, names, named, leads_of_route ends (fun _ other onTheWay => ?_)
    (entry?_addFile_self named ends)⟩
  obtain ⟨apart, unused⟩ := free other onTheWay
  exact entry?_addFile_of_mem_route named ends apart onTheWay unused

/-- Writing a file changes nothing for a path that does not go over its place. -/
theorem Leads.addFile {start : Location} {others : List String} (leads : tree.Leads start others entry)
    (named : namesOf? path = some names) (ends : names.foldlM Location.enter? [] = some place)
    (apart : ∀ other ∈ Location.route start others, other ≠ place) :
    (tree.addFile path bytes).Leads start others entry := by
  induction leads with
  | here found =>
    exact .here (entry?_addFile_of_ne named ends (apart _ (List.mem_singleton_self _)) found)
  | through directory step _ ih =>
    rw [Location.route, step] at apart
    obtain ⟨here, further⟩ := List.forall_mem_cons.mp apart
    exact .through (entry?_addFile_of_ne named ends here directory) step (ih further)

theorem Contains.addFile {other : String} {found : Bytes} (contains : tree.Contains other found)
    (named : namesOf? path = some names) (ends : names.foldlM Location.enter? [] = some place)
    (apart : ∀ others, namesOf? other = some others → ∀ passed ∈ Location.route [] others, passed ≠ place) :
    (tree.addFile path bytes).Contains other found := by
  obtain ⟨noNul, others, otherNamed, leads⟩ := contains
  exact ⟨noNul, others, otherNamed, leads.addFile named ends (apart others otherNamed)⟩

end Writing

end FileTree

namespace Program

variable {tree : FileTree} {path : String}

/-- What becomes of a script in a tree of files. If the path leads to it, it is scanned, and else the program
tells why there is nothing to read. -/
theorem exits_in_tree (stdin : Bytes) (script : hasScriptExtension path = true) :
    (∀ bytes, tree.Contains path bytes → Exits stdin tree.read [path]
      (if (scan (Utf8.lossy bytes)).2.toList = [] then 0 else 65)
      (tokenLines (scan (Utf8.lossy bytes)).1) (errorLines (scan (Utf8.lossy bytes)).2.toList)) ∧
    (∀ fault text, tree.Unreadable path fault → fault.Tells text →
      Exits stdin tree.read [path] 74 [] (Utf8.encode (text ++ "\n"))) ∧
    ((∃ bytes, tree.Contains path bytes) ∨ ∃ fault, tree.Unreadable path fault) := by
  refine ⟨fun bytes contains => ?_, fun fault text unreadable tells => ?_, tree.contains_or_unreadable path⟩
  · exact .script script contains.read_eq
  · exact .unreadable script unreadable.read_eq tells

/-- A script is scanned as it was written, if no file was in the way. -/
theorem exits_of_written (stdin bytes : Bytes) {names : List String} {place : Location}
    (script : hasScriptExtension path = true) (noNul : '\x00' ∉ path.toList)
    (named : FileTree.namesOf? path = some names) (ends : names.foldlM Location.enter? [] = some place)
    (free : ∀ other ∈ Location.route [] names.dropLast, other ≠ place ∧ tree.files.lookup other = none) :
    Exits stdin (tree.addFile path bytes).read [path]
      (if (scan (Utf8.lossy bytes)).2.toList = [] then 0 else 65)
      (tokenLines (scan (Utf8.lossy bytes)).1) (errorLines (scan (Utf8.lossy bytes)).2.toList) := by
  refine (exits_in_tree stdin script).1 bytes ?_
  exact FileTree.contains_addFile noNul named ends free

end Program

end ScriptLexer
