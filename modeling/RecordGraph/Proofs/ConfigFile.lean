import RecordGraph.Config.File
import RecordGraph.Proofs.Outcome
import RecordGraph.Proofs.TomlStrings
import RecordGraph.Proofs.WorkspaceTables

/-!
# Configurations that are written are read

A configuration file is read as it was written, whatever its texts are. It can be written where
its path leads to a name that no directory has.
-/
namespace RecordGraph

/-! ## Entries of a document -/

namespace Toml

section
variable {c : Char} {name rest : List Char} {d : Document}

theorem isSpace_of_isBareChar (hc : isBareChar c = true) : isSpace c = false := by
  rw [isSpace, Bool.or_eq_false_iff, beq_eq_false_iff_ne, beq_eq_false_iff_ne]
  constructor <;> rintro rfl <;> exact absurd hc (by decide)

theorem skipSpace_bare (hc : isBareChar c = true) : skipSpace (c :: rest) = c :: rest :=
  List.dropWhile_cons_of_neg (by rw [isSpace_of_isBareChar hc]; decide)

theorem skipLayout_bare (hc : isBareChar c = true) : skipLayout false (c :: rest) = c :: rest := by
  unfold skipLayout
  split
  · next heq => cases heq
  · next heq => exact absurd ((List.cons.inj heq).1 ▸ hc) (by decide)
  · next heq => exact absurd ((List.cons.inj heq).1 ▸ hc) (by decide)
  · next heq =>
    obtain ⟨rfl, rfl⟩ := List.cons.inj heq
    have hcomment : c ≠ '#' := by rintro rfl; exact absurd hc (by decide)
    simp [isSpace_of_isBareChar hc, hcomment]

/-- A name without quotes ends at the space behind it. -/
theorem readKeyPart_bare (hne : name ≠ []) (hbare : ∀ c ∈ name, isBareChar c = true) :
    readKeyPart (name ++ ' ' :: rest) = some (String.ofList name, ' ' :: rest) := by
  obtain ⟨c, name, rfl⟩ := List.exists_cons_of_ne_nil hne
  have hc := hbare c List.mem_cons_self
  unfold readKeyPart
  split
  · next heq => exact absurd ((List.cons.inj heq).1 ▸ hc) (by decide)
  · next heq => exact absurd ((List.cons.inj heq).1 ▸ hc) (by decide)
  · have htake : (c :: name ++ ' ' :: rest).takeWhile isBareChar = c :: name := by
      rw [List.takeWhile_append_of_pos hbare, List.takeWhile_cons_of_neg (by decide),
        List.append_nil]
    have hdrop : (c :: name ++ ' ' :: rest).dropWhile isBareChar = ' ' :: rest := by
      rw [List.dropWhile_append_of_pos hbare, List.dropWhile_cons_of_neg (by decide)]
    simp only [htake, hdrop, if_neg hne]

theorem readParts_bare (limit : ℕ) (hne : name ≠ []) (hbare : ∀ c ∈ name, isBareChar c = true) :
    readParts (limit + 2) (name ++ ' ' :: '=' :: rest) =
      some ([String.ofList name], '=' :: rest) := by
  have hstart : skipSpace (name ++ ' ' :: '=' :: rest) = name ++ ' ' :: '=' :: rest := by
    obtain ⟨c, name, rfl⟩ := List.exists_cons_of_ne_nil hne
    exact skipSpace_bare (hbare c List.mem_cons_self)
  have hsign : skipSpace (' ' :: '=' :: rest) = '=' :: rest := rfl
  simp only [readParts, hstart, readKeyPart_bare hne hbare, Option.bind_eq_bind, Option.bind_some,
    hsign]
  rfl

theorem readKey_bare (hne : name ≠ []) (hbare : ∀ c ∈ name, isBareChar c = true) :
    readKey (name ++ ' ' :: '=' :: rest) = some ([String.ofList name], '=' :: rest) :=
  readParts_bare 78 hne hbare

/-- A string begins with one of the two quotes. -/
theorem exists_quote (s : List Char) : ∃ t, quote s = '"' :: t ∨ quote s = '\'' :: t := by
  unfold quote
  split
  · exact ⟨_, .inl rfl⟩
  · exact ⟨_, .inr rfl⟩
  · exact ⟨_, .inl rfl⟩
  · exact ⟨_, .inr rfl⟩

theorem readValue_quote (depth fuel : ℕ) (s rest : List Char) :
    readValue depth (fuel + 1) (skipSpace (' ' :: (quote s ++ '\n' :: rest))) =
      some (.scalar (.string (String.ofList s)), '\n' :: rest) := by
  have hread : unquote? (quote s ++ '\n' :: rest) = some (s, '\n' :: rest) :=
    unquote?_quote s (by simp) (by simp)
  obtain ⟨t, heq | heq⟩ := exists_quote s
  · rw [heq, List.cons_append] at hread ⊢
    simp [skipSpace, isSpace, readValue, hread]
  · rw [heq, List.cons_append] at hread ⊢
    simp [skipSpace, isSpace, readValue, hread]

theorem readLine_entry (fuel : ℕ) (t : String) (hne : name ≠ [])
    (hbare : ∀ c ∈ name, isBareChar c = true) :
    readLine (fuel + 1) d (name ++ ' ' :: '=' :: ' ' :: (quote t.toList ++ '\n' :: rest)) =
      (d.insert [String.ofList name] (.scalar (.string t))).map (·, rest) := by
  obtain ⟨c, name, rfl⟩ := List.exists_cons_of_ne_nil hne
  have hc := hbare c List.mem_cons_self
  unfold readLine
  split
  · next heq => exact absurd ((List.cons.inj heq).1 ▸ hc) (by decide)
  · next heq => exact absurd ((List.cons.inj heq).1 ▸ hc) (by decide)
  · have hsign : ['='].isPrefixOf? ('=' :: ' ' :: (quote t.toList ++ '\n' :: rest)) =
        some (' ' :: (quote t.toList ++ '\n' :: rest)) := rfl
    have hend : endLine ('\n' :: rest) = some rest := rfl
    simp only [readEntry, readKey_bare hne hbare, hsign, readValue_quote, hend,
      Option.bind_eq_bind, Option.bind_some, Option.pure_def, String.ofList_toList,
      Option.map_eq_bind]
    rfl

/-- One line adds one entry. -/
theorem readLines_entry (fuel : ℕ) (t : String) (hne : name ≠ [])
    (hbare : ∀ c ∈ name, isBareChar c = true) (hheader : d.header = [])
    (hnew : d.entries.lookup (String.ofList name) = none) :
    readLines (fuel + 1) d (name ++ ' ' :: '=' :: ' ' :: (quote t.toList ++ '\n' :: rest)) =
      readLines fuel ⟨d.entries.add (String.ofList name) (.scalar (.string t)), []⟩ rest := by
  have hinsert : d.insert [String.ofList name] (.scalar (.string t)) =
      some ⟨d.entries.add (String.ofList name) (.scalar (.string t)), []⟩ := by
    simp [Document.insert, hheader, Entries.modifyAt, Entries.insert, hnew]
  have hstart : skipLayout false (name ++ ' ' :: '=' :: ' ' :: (quote t.toList ++ '\n' :: rest)) =
      name ++ ' ' :: '=' :: ' ' :: (quote t.toList ++ '\n' :: rest) := by
    obtain ⟨c, name, rfl⟩ := List.exists_cons_of_ne_nil hne
    exact skipLayout_bare (hbare c List.mem_cons_self)
  rw [readLines, hstart]
  split
  · simp_all
  · simp only [readLine_entry fuel t hne hbare, hinsert, Option.map_some, Option.bind_eq_bind,
      Option.bind_some]

theorem readLines_nil {fuel : ℕ} (hfuel : fuel ≠ 0) : readLines fuel d [] = some d := by
  obtain ⟨fuel, rfl⟩ := Nat.exists_eq_succ_of_ne_zero hfuel
  rfl

theorem parse_of_head? {text : String} (h : text.toList.head? ≠ some '\uFEFF') :
    parse text = (readLines (text.toList.length + 1) .empty text.toList).map Document.entries := by
  have hlines : lines text = text.toList := by
    unfold lines
    split
    · next heq => exact absurd (by rw [heq]; rfl) h
    · rfl
  rw [parse, hlines]

end
end Toml

/-! ## Configurations -/

namespace Config

variable {name : String} {rest : List Char}

/-- The entries of a configuration as a document has them. -/
def entries (c : Config) : Toml.Entries :=
  (c.database.toList.map fun s => ("database", .scalar (.string s))) ++
    c.primaryKey.toList.map fun s => ("primary_key", .scalar (.string s))

theorem entry_append (name s : String) (rest : List Char) : entry name (some s) ++ rest =
    name.toList ++ ' ' :: '=' :: ' ' :: (Toml.quote s.toList ++ '\n' :: rest) := by
  simp [entry]

theorem readLines_entry {d : Toml.Document} (fuel : ℕ) (s : String) (hne : name ≠ "")
    (hbare : ∀ c ∈ name.toList, Toml.isBareChar c = true) (hheader : d.header = [])
    (hnew : d.entries.lookup name = none) :
    Toml.readLines (fuel + 1) d (entry name (some s) ++ rest) =
      Toml.readLines fuel ⟨d.entries.add name (.scalar (.string s)), []⟩ rest := by
  have hname : String.ofList name.toList = name := String.ofList_toList
  rw [entry_append, Toml.readLines_entry fuel s (by simpa using hne) hbare hheader (by rwa [hname]),
    hname]

theorem parse_toText (c : Config) : Toml.parse c.toText = some c.entries := by
  have htext : c.toText.toList = entry "database" c.database ++ entry "primary_key" c.primaryKey :=
    String.toList_ofList
  have hdatabase (fuel : ℕ) (s : String) (rest : List Char) :
      Toml.readLines (fuel + 1) .empty (entry "database" (some s) ++ rest) =
        Toml.readLines fuel ⟨[("database", .scalar (.string s))], []⟩ rest :=
    readLines_entry fuel s (by decide) (List.all_eq_true.1 (by decide)) rfl rfl
  have hkey (fuel : ℕ) {d : Toml.Document} (t : String) (hheader : d.header = [])
      (hnew : d.entries.lookup "primary_key" = none) :
      Toml.readLines (fuel + 1) d (entry "primary_key" (some t) ++ []) =
        Toml.readLines fuel ⟨d.entries.add "primary_key" (.scalar (.string t)), []⟩ [] :=
    readLines_entry fuel t (by decide) (List.all_eq_true.1 (by decide)) hheader hnew
  have hhead : c.toText.toList.head? ≠ some '\uFEFF' := by
    rw [htext]
    cases c.database <;> cases c.primaryKey <;> simp [entry]
  rw [Toml.parse_of_head? hhead, htext]
  obtain ⟨_ | s, _ | t⟩ := c
  · rfl
  · rw [entry, List.nil_append, ← List.append_nil (entry "primary_key" (some t)), hkey _ t rfl rfl,
      Toml.readLines_nil (by simp [entry])]
    rfl
  · rw [hdatabase, entry, Toml.readLines_nil (by simp [entry])]
    rfl
  · obtain ⟨fuel, hfuel⟩ : ∃ fuel, (entry "database" (some s) ++
        entry "primary_key" (some t)).length = fuel + 2 :=
      Nat.exists_eq_add_of_le' (by simp [entry])
    rw [hfuel, hdatabase, ← List.append_nil (entry "primary_key" (some t)), hkey _ t rfl rfl,
      Toml.readLines_nil fuel.succ_ne_zero]
    rfl

theorem ofText?_toText (c : Config) : ofText? c.toText = some c := by
  obtain ⟨database, primaryKey⟩ := c
  simp only [ofText?, parse_toText, Option.bind_eq_bind, Option.bind_some]
  cases database <;> cases primaryKey <;> rfl

end Config

/-! ## Files -/

namespace Workspace

section
variable {w : Workspace} {place p : Place} {file : File} {path : FileName}

theorem isDirectory_put (h : w.IsDirectory p) : (w.put place file).IsDirectory p := by
  obtain ⟨d, hd, hp⟩ := h
  refine ⟨d, ?_, hp⟩
  rcases List.mem_append.1 hd with hmade | habove
  · exact List.mem_append_left _ hmade
  · obtain ⟨⟨q, f⟩, hq, rfl⟩ := List.mem_map.1 habove
    refine List.mem_append_right _ (List.mem_map.2 ?_)
    by_cases hplace : q = place
    · exact ⟨(place, file), List.mem_cons_self, by rw [hplace]⟩
    · exact ⟨(q, f), List.mem_cons_of_mem _ (List.mem_filter.2 ⟨hq, by simpa using hplace⟩), rfl⟩

/-- What was a directory stays one, wherever else a file is put. -/
theorem occupant?_put_directory (hplace : w.occupant? place ≠ some .directory)
    (h : w.occupant? p = some .directory) : (w.put place file).occupant? p = some .directory := by
  have hne : p ≠ place := by
    rintro rfl
    exact hplace h
  have hlookup : (w.put place file).files.lookup p = w.files.lookup p := by
    simp only [put, List.lookup_cons, beq_false_of_ne hne, lookup_filter_ne hne]
  unfold occupant? at h ⊢
  rw [hlookup]
  split at h
  · cases h
  · split_ifs at h with hdirectory
    rw [if_pos (isDirectory_put hdirectory)]

theorem walk_put (hplace : w.occupant? place ≠ some .directory) {steps : List FileName} {q : Place}
    (h : w.walk p steps = .ok q) : (w.put place file).walk p steps = .ok q := by
  induction steps generalizing p with
  | nil => exact h
  | cons step steps ih =>
    rw [walk] at h ⊢
    split_ifs at h ⊢ with hstay hup
    · exact ih h
    · exact ih h
    · split at h
      · cases h
      · cases h
      · cases h
      · next hlook =>
        rw [look] at hlook
        split_ifs at hlook with hsize
        rw [look, if_pos hsize, occupant?_put_directory hplace (Except.ok.inj hlook)]
        exact ih h

/-- A path leads where it led. -/
theorem goal_put (hplace : w.occupant? place ≠ some .directory) {g : Goal}
    (h : w.goal path = .ok g) : (w.put place file).goal path = .ok g := by
  have hwalk {steps : List FileName} {f : Place → Goal}
      (hmap : (w.walk (w.start path) steps).map f = .ok g) :
      ((w.put place file).walk ((w.put place file).start path) steps).map f = .ok g := by
    cases hq : w.walk (w.start path) steps with
    | error e =>
      rw [hq] at hmap
      cases hmap
    | ok q =>
      have hput : (w.put place file).walk ((w.put place file).start path) steps = .ok q :=
        walk_put hplace hq
      rwa [hput, ← hq]
  simp only [goal] at h ⊢
  split_ifs at h ⊢
  split at h
  · exact h
  · split_ifs at h ⊢
    · exact hwalk h
    · exact hwalk h

/-- A path leads to a name that is not too long, without a slash behind it, and no directory has
this name. -/
def TakesFile (w : Workspace) (path : FileName) : Prop :=
  ∃ parent name, w.goal path = .ok (.name parent name false) ∧ name.size ≤ nameLimit ∧
    w.occupant? (parent ++ [name]) ≠ some .directory

theorem takesFile_of_find {f : File} (h : w.find path = .ok (.file f)) : w.TakesFile path := by
  obtain ⟨g, hgoal, h⟩ := bind_eq_ok.1 h
  cases g with
  | directory => cases h
  | name parent name slash =>
    obtain ⟨entry, hlook, h⟩ := bind_eq_ok.1 h
    rw [look] at hlook
    split_ifs at hlook with hsize
    obtain rfl := Except.ok.inj hlook
    split at h
    · cases h
    · cases h
    · next hfile =>
      split_ifs at h with hslash
      rw [Bool.not_eq_true] at hslash
      exact ⟨parent, name, hslash ▸ hgoal, hsize, by simp [hfile]⟩

theorem writeText_eq_ok {s : String} {w' : Workspace} : w.writeText path s = .ok w' ↔
    ∃ parent name, w.goal path = .ok (.name parent name false) ∧ name.size ≤ nameLimit ∧
      w.occupant? (parent ++ [name]) ≠ some .directory ∧
      w' = w.put (parent ++ [name]) (.text s) := by
  constructor
  · intro h
    obtain ⟨g, hgoal, h⟩ := bind_eq_ok.1 h
    split at h
    · cases h
    · cases h
    · next parent name =>
      obtain ⟨entry, hlook, h⟩ := bind_eq_ok.1 h
      rw [look] at hlook
      split_ifs at hlook with hsize
      obtain rfl := Except.ok.inj hlook
      split at h
      · cases h
      · next hfree => exact ⟨parent, name, hgoal, hsize, hfree, (Except.ok.inj h).symm⟩
  · rintro ⟨parent, name, hgoal, hsize, hfree, rfl⟩
    have hlook : w.look parent name = .ok (w.occupant? (parent ++ [name])) := if_pos hsize
    simp only [writeText, hgoal, hlook, bind, Except.bind]
    rfl

/-- What was written is found and read. -/
theorem find_put {parent : Place} {name : FileName}
    (hgoal : w.goal path = .ok (.name parent name false)) (hsize : name.size ≤ nameLimit)
    (hfree : w.occupant? (parent ++ [name]) ≠ some .directory) :
    (w.put (parent ++ [name]) file).find path = .ok (.file file) := by
  have hlook : (w.put (parent ++ [name]) file).look parent name = .ok (some (.file file)) := by
    rw [look, if_pos hsize, occupant?_put]
  simp only [find, goal_put hfree hgoal, hlook, bind, Except.bind]
  rfl

end
end Workspace

namespace Config

theorem write_eq_ok {w w' : Workspace} {path : String} {c : Config} {force : Bool} :
    write w path c force = .ok w' ↔
      (w.has path = true → force = true) ∧ w.writeText path c.toText = .ok w' := by
  have hmap : (w.writeText path c.toText).mapError FileError.fault = .ok w' ↔
      w.writeText path c.toText = .ok w' := by
    cases w.writeText path c.toText <;> simp [Except.mapError]
  unfold write
  split_ifs with hrefused
  · simp [hrefused]
  · have hallowed : w.has path = true → force = true := by simpa using hrefused
    rw [hmap, and_iff_right hallowed]

/-- A configuration is written where a file can be, over a file only by force, and then it is read
as it was written. -/
theorem load_write (w : Workspace) (path : String) (c : Config) (force : Bool) :
    ((∃ w', write w path c force = .ok w') ↔
      (w.has path = true → force = true) ∧ w.TakesFile path) ∧
    (∀ f, w.find path = .ok (.file f) → w.TakesFile path) ∧
    ∀ w', write w path c force = .ok w' → ∃ loaded, load w' path = .ok (some loaded) ∧
      loaded.database = c.database ∧ loaded.primaryKey = c.primaryKey ∧
      loaded.primaryKeyOrDefault = c.primaryKey.getD "id" := by
  refine ⟨⟨?_, ?_⟩, fun f => Workspace.takesFile_of_find, ?_⟩
  · rintro ⟨w', h⟩
    obtain ⟨hallowed, hwritten⟩ := write_eq_ok.1 h
    obtain ⟨parent, name, hgoal, hsize, hfree, -⟩ := Workspace.writeText_eq_ok.1 hwritten
    exact ⟨hallowed, parent, name, hgoal, hsize, hfree⟩
  · rintro ⟨hallowed, parent, name, hgoal, hsize, hfree⟩
    exact ⟨_, write_eq_ok.2 ⟨hallowed,
      Workspace.writeText_eq_ok.2 ⟨parent, name, hgoal, hsize, hfree, rfl⟩⟩⟩
  · intro w' h
    obtain ⟨parent, name, hgoal, hsize, hfree, rfl⟩ :=
      Workspace.writeText_eq_ok.1 (write_eq_ok.1 h).2
    refine ⟨c, ?_, rfl, rfl, rfl⟩
    have hfind : (w.put (parent ++ [name]) (.text c.toText)).find path =
        .ok (.file (.text c.toText)) := Workspace.find_put hgoal hsize hfree
    have hhas : (w.put (parent ++ [name]) (.text c.toText)).has path = true := by
      rw [Workspace.has, hfind]
      rfl
    have htext : (w.put (parent ++ [name]) (.text c.toText)).readText path = .ok c.toText := by
      simp only [Workspace.readText, hfind, bind, Except.bind]
      rfl
    rw [load, if_pos hhas, htext]
    simp only [ofText?_toText]

/-- Quotes in runs, a backslash, a line end and control characters come back from a new file, and
what is absent stays so in a file that held something else. -/
theorem load_write_quotes :
    let c : Config := ⟨some "'''\"\"\"\"\\\n\t\x7f\"", some "''"⟩
    let fresh := Workspace.empty []
    let taken := fresh.put [FileName.ofText "dbrecord.toml"] (.text "primary_key = 'uid'")
    (∃ w', write fresh "dbrecord.toml" c false = .ok w' ∧
      load w' "dbrecord.toml" = .ok (some c) ∧ c.primaryKeyOrDefault = "''") ∧
    (write taken "dbrecord.toml" .empty false).isOk = false ∧
    ∃ w', write taken "dbrecord.toml" .empty true = .ok w' ∧
      load w' "dbrecord.toml" = .ok (some .empty) ∧ Config.empty.primaryKeyOrDefault = "id" := by
  intro c fresh taken
  have hloads (w : Workspace) (c : Config) (force : Bool)
      (h : (write w "dbrecord.toml" c force).isOk = true) :
      ∃ w', write w "dbrecord.toml" c force = .ok w' ∧ load w' "dbrecord.toml" = .ok (some c) := by
    obtain ⟨-, -, hload⟩ := load_write w "dbrecord.toml" c force
    cases hwrite : write w "dbrecord.toml" c force with
    | error e =>
      rw [hwrite] at h
      cases h
    | ok w' =>
      obtain ⟨⟨database, primaryKey⟩, hloaded, rfl, rfl, -⟩ := hload w' hwrite
      exact ⟨w', rfl, hloaded⟩
  obtain ⟨w', hwrite, hload⟩ := hloads fresh c false (by decide +kernel)
  obtain ⟨w'', hforced, hempty⟩ := hloads taken .empty true (by decide +kernel)
  exact ⟨⟨w', hwrite, hload, rfl⟩, by decide +kernel, w'', hforced, hempty, rfl⟩

end Config
end RecordGraph
