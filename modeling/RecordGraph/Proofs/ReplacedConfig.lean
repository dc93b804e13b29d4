import RecordGraph.CommandLine.Run
import RecordGraph.Proofs.ConfigFile
import RecordGraph.Proofs.WrittenArguments

/-!
# Configurations that are replaced

A run that shall replace a configuration file reads it first, like any other run. So it replaces
what is a configuration already, and fails on any other text, which it leaves as it is. Without
force it fails on whatever is there.
-/
namespace RecordGraph

namespace Config

/-- A text is a TOML document, and the entries that count are texts where it has them. -/
def IsConfiguration (text : String) : Prop :=
  ∃ entries, Toml.parse text = some entries ∧ ∀ name ∈ ["database", "primary_key"],
    ∀ item, entries.lookup name = some item → ∃ s, item = .scalar (.string s)

theorem exists_text?_iff {entries : Toml.Entries} {name : String} :
    (∃ t, text? entries name = some t) ↔
      ∀ item, entries.lookup name = some item → ∃ s, item = .scalar (.string s) := by
  rw [text?]
  cases entries.lookup name with
  | none => simp
  | some item =>
    rcases item with (s | n | x | b | m) | items | ⟨origin, entries⟩ | elements <;> simp

theorem exists_ofText?_iff {text : String} : (∃ c, ofText? text = some c) ↔ IsConfiguration text := by
  constructor
  · rintro ⟨c, h⟩
    obtain ⟨entries, hparse, h⟩ := Option.bind_eq_some_iff.1 h
    obtain ⟨database, hdatabase, h⟩ := Option.bind_eq_some_iff.1 h
    obtain ⟨primaryKey, hkey, -⟩ := Option.bind_eq_some_iff.1 h
    refine ⟨entries, hparse, ?_⟩
    simp only [List.forall_mem_cons, List.not_mem_nil, false_imp_iff, implies_true, and_true]
    exact ⟨exists_text?_iff.1 ⟨_, hdatabase⟩, exists_text?_iff.1 ⟨_, hkey⟩⟩
  · rintro ⟨entries, hparse, htexts⟩
    obtain ⟨database, hdatabase⟩ := exists_text?_iff.2 (htexts "database" (by simp))
    obtain ⟨primaryKey, hkey⟩ := exists_text?_iff.2 (htexts "primary_key" (by simp))
    exact ⟨⟨database, primaryKey⟩, by simp [ofText?, hparse, hdatabase, hkey]⟩

end Config

namespace Workspace

variable {w w' : Workspace} {path : FileName} {s : String}

theorem readText_eq_ok :
    w.readText path = .ok s ↔ ∃ f, w.find path = .ok (.file f) ∧ f.text? = some s := by
  rw [readText]
  constructor
  · intro h
    obtain ⟨entry, hfind, h⟩ := bind_eq_ok.1 h
    cases entry with
    | directory => cases h
    | file f =>
      refine ⟨f, hfind, ?_⟩
      cases htext : f.text? with
      | none => simp [htext] at h
      | some t =>
        simp only [htext] at h
        rw [Except.ok.inj h]
  · rintro ⟨f, hfind, htext⟩
    simp only [hfind, htext, bind, Except.bind]
    rfl

theorem has_of_readText (h : w.readText path = .ok s) : w.has path = true := by
  obtain ⟨f, hfind, -⟩ := readText_eq_ok.1 h
  rw [has, hfind]
  rfl

/-- Where a text was read another one can be written, and is read then. -/
theorem writeText_of_readText {t : String} (h : w.readText path = .ok s) :
    ∃ w', w.writeText path t = .ok w' ∧ w'.readText path = .ok t := by
  obtain ⟨f, hfind, -⟩ := readText_eq_ok.1 h
  obtain ⟨parent, name, hgoal, hsize, hfree⟩ := takesFile_of_find hfind
  exact ⟨_, writeText_eq_ok.2 ⟨parent, name, hgoal, hsize, hfree, rfl⟩,
    readText_eq_ok.2 ⟨_, find_put hgoal hsize hfree, rfl⟩⟩

end Workspace

namespace Config

variable {w : Workspace} {path text : String} {c : Config}

theorem load_of_readText (h : w.readText path = .ok text) (hc : ofText? text = some c) :
    load w path = .ok (some c) := by
  simp only [load, if_pos (Workspace.has_of_readText h), h, hc]

theorem load_of_ofText?_eq_none (h : w.readText path = .ok text) (hnone : ofText? text = none) :
    load w path = .error (.malformed path text) := by
  simp only [load, if_pos (Workspace.has_of_readText h), h, hnone]

/-- Force replaces any text. -/
theorem write_of_readText (h : w.readText path = .ok text) :
    ∃ w', write w path c true = .ok w' ∧ w'.readText path = .ok c.toText := by
  obtain ⟨w', hwrite, hread⟩ := Workspace.writeText_of_readText (t := c.toText) h
  exact ⟨w', write_eq_ok.2 ⟨fun _ => rfl, hwrite⟩, hread⟩

theorem write_of_has (h : w.has path = true) :
    write w path c false = .error (.alreadyExists path) :=
  if_pos ⟨h, rfl⟩

end Config

namespace CommandLine

open Config (IsConfiguration)

variable {args : List String} {w w' : Workspace} {i : Invocation}
  {primaryKey : Option String} {force : Bool}

theorem run_of_error {e : CommandError} (quiet : Bool) (hparse : parse args = .ok (.invocation i))
    (h : i.run w = (.error e, w')) :
    (run quiet args w).ending.code = 1 ∧ (run quiet args w).workspace = w' := by
  simp only [run, hparse, h, Ending.code, and_self]

theorem run_of_report {report : Report} (quiet : Bool)
    (hparse : parse args = .ok (.invocation i)) (h : i.run w = (.ok report, w')) :
    (run quiet args w).ending.code = 0 ∧ (run quiet args w).workspace = w' := by
  simp only [run, hparse, h, Ending.code, and_self]

namespace Invocation

theorem run_of_load {e : Config.FileError} (h : Config.load w i.configPath = .error e) :
    i.run w = (.error (.config e), w) := by
  rw [run, h]

theorem run_init_eq {config : Option Config} (hcommand : i.command = .init primaryKey force)
    (h : Config.load w i.configPath = .ok config) :
    i.run w = init i.configPath (i.databasePath (config.getD .empty)) primaryKey force w := by
  rw [run, h]
  simp only [execute, hcommand]

end Invocation

theorem init_of_write {configPath database : String}
    (h : Config.write w configPath ⟨some database, primaryKey⟩ force = .ok w') :
    ∃ report, init configPath database primaryKey force w = (.ok report, w') := by
  simp only [init, h]
  exact ⟨_, rfl⟩

theorem init_of_error {configPath database : String} {e : Config.FileError}
    (h : Config.write w configPath ⟨some database, primaryKey⟩ force = .error e) :
    init configPath database primaryKey force w = (.error (.config e), w) := by
  simp only [init, h]

/-- Without force nothing that is there is touched, whatever it is. -/
theorem run_init_unforced (hcommand : i.command = .init primaryKey false)
    (hhas : w.has i.configPath = true) : ∃ e, i.run w = (.error e, w) := by
  cases hload : Config.load w i.configPath with
  | error e => exact ⟨_, Invocation.run_of_load hload⟩
  | ok config =>
    rw [Invocation.run_init_eq hcommand hload]
    exact ⟨_, init_of_error (Config.write_of_has hhas)⟩

/-- With force a configuration gives way to one that names the database in force. -/
theorem run_init_forced {text : String} {old : Config}
    (hcommand : i.command = .init primaryKey true) (hread : w.readText i.configPath = .ok text)
    (hold : Config.ofText? text = some old) :
    let c : Config := ⟨some (i.databasePath old), primaryKey⟩
    ∃ report w', i.run w = (.ok report, w') ∧ Config.write w i.configPath c true = .ok w' ∧
      w'.readText i.configPath = .ok c.toText := by
  intro c
  obtain ⟨w', hwrite, hwritten⟩ := Config.write_of_readText (c := c) hread
  obtain ⟨report, hinit⟩ := init_of_write hwrite
  refine ⟨report, w', ?_, hwrite, hwritten⟩
  rw [Invocation.run_init_eq hcommand (Config.load_of_readText hread hold)]
  exact hinit

/-- With force the run ends with code 0 exactly if the file held a configuration, since it is read
first; then the file is the one that is written for the key and the database, which is the given one
if one is given. Any other text stays, with code 1. Without force all that is there stays, with code
1. Every key can be given, and every database that has a name. -/
theorem run_init_replaces (quiet : Bool) (w : Workspace)
    (hcommand : i.command = .init primaryKey force) :
    (i.database ≠ some "" → i.config ≠ some "" → ∃ args, parse args = .ok (.invocation i)) ∧
    ∀ args, parse args = .ok (.invocation i) →
      let o := run quiet args w
      (∀ text, force = true → w.readText i.configPath = .ok text →
        (o.ending.code = 0 ↔ IsConfiguration text) ∧
        (o.ending.code = 0 → ∃ old, Config.ofText? text = some old ∧
          let c : Config := ⟨some (i.databasePath old), primaryKey⟩
          (∀ d, i.database = some d → c.database = some d) ∧
          Config.write w i.configPath c true = .ok o.workspace ∧
          o.workspace.readText i.configPath = .ok c.toText) ∧
        (o.ending.code ≠ 0 → o.ending.code = 1 ∧ o.workspace = w)) ∧
      (force = false → w.has i.configPath = true → o.ending.code = 1 ∧ o.workspace = w) := by
  refine ⟨fun hdatabase hconfig => ⟨_, Invocation.parse_arguments ⟨hdatabase, hconfig, ?_⟩⟩,
    fun args hparse => ⟨?_, ?_⟩⟩
  · rw [hcommand]
    exact False.elim
  · rintro text rfl hread
    cases hold : Config.ofText? text with
    | some old =>
      obtain ⟨report, w', hrun, hwrite, hwritten⟩ := run_init_forced hcommand hread hold
      obtain ⟨hcode, hworkspace⟩ := run_of_report quiet hparse hrun
      have hgiven : ∀ d, i.database = some d → some (i.databasePath old) = some d := by
        intro d hd
        rw [Invocation.databasePath, hd]
        rfl
      simp only [hcode, hworkspace, true_iff, ne_eq, not_true_eq_false, false_imp_iff, and_true]
      exact ⟨Config.exists_ofText?_iff.1 ⟨old, hold⟩, fun _ => ⟨old, rfl, hgiven, hwrite, hwritten⟩⟩
    | none =>
      have hbad : ¬ IsConfiguration text := by
        intro hc
        obtain ⟨c, hc⟩ := Config.exists_ofText?_iff.2 hc
        cases hold.symm.trans hc
      have hrun := Invocation.run_of_load (Config.load_of_ofText?_eq_none hread hold)
      obtain ⟨hcode, hworkspace⟩ := run_of_error quiet hparse hrun
      simp [hcode, hworkspace, hbad]
  · rintro rfl hhas
    obtain ⟨e, hrun⟩ := run_init_unforced hcommand hhas
    exact run_of_error quiet hparse hrun

/-- A number stands for the database: the file stays, with force as without. One that names an old
key is replaced. -/
theorem run_init_replaces_mistyped :
    let forced := ["init", "--force", "-d", "a.db", "--primary-key", "uid"]
    let unforced := ["init", "-d", "a.db"]
    let holding (text : String) := (Workspace.empty []).put ["dbrecord.toml"] (.text text)
    let mistyped := holding "database = 3\n"
    let replaced := run false forced (holding "primary_key = 'id'\n")
    (run false forced mistyped).ending.code = 1 ∧ (run false forced mistyped).workspace = mistyped ∧
    (run false unforced mistyped).ending.code = 1 ∧
    (run false unforced mistyped).workspace = mistyped ∧
    replaced.ending.code = 0 ∧ replaced.workspace.readText "dbrecord.toml" =
      .ok "database = \"a.db\"\nprimary_key = \"uid\"\n" := by
  intro forced unforced holding mistyped replaced
  let i : Invocation := ⟨false, some "a.db", none, .init (some "uid") true⟩
  let j : Invocation := ⟨false, some "a.db", none, .init none false⟩
  have hi : parse forced = .ok (.invocation i) := by decide +kernel
  have hj : parse unforced = .ok (.invocation j) := by decide +kernel
  have hmistyped : mistyped.readText i.configPath = .ok "database = 3\n" := by decide +kernel
  have hold : (holding "primary_key = 'id'\n").readText i.configPath =
    .ok "primary_key = 'id'\n" := by decide +kernel
  obtain ⟨hbad, -⟩ := (run_init_replaces (i := i) false mistyped rfl).2 forced hi
  obtain ⟨-, hrefused⟩ := (run_init_replaces (i := j) false mistyped rfl).2 unforced hj
  obtain ⟨hgood, -⟩ :=
    (run_init_replaces (i := i) false (holding "primary_key = 'id'\n") rfl).2 forced hi
  obtain ⟨hiff, -, hkept⟩ := hbad _ rfl hmistyped
  have hfails : (run false forced mistyped).ending.code ≠ 0 := by
    intro hcode
    obtain ⟨c, hc⟩ := Config.exists_ofText?_iff.2 (hiff.1 hcode)
    have hnone : Config.ofText? "database = 3\n" = none := by decide +kernel
    cases hnone.symm.trans hc
  obtain ⟨hcode, hworkspace⟩ := hkept hfails
  obtain ⟨hcode', hworkspace'⟩ := hrefused rfl (Workspace.has_of_readText hmistyped)
  obtain ⟨hiff', hreplaced, -⟩ := hgood _ rfl hold
  have hends : replaced.ending.code = 0 :=
    hiff'.2 (Config.exists_ofText?_iff.1 ⟨⟨none, some "id"⟩, by decide +kernel⟩)
  obtain ⟨c, -, -, -, hwritten⟩ := hreplaced hends
  have htext : Config.toText ⟨some "a.db", some "uid"⟩ =
    "database = \"a.db\"\nprimary_key = \"uid\"\n" := by decide +kernel
  exact ⟨hcode, hworkspace, hcode', hworkspace', hends, htext ▸ hwritten⟩

end CommandLine
end RecordGraph
