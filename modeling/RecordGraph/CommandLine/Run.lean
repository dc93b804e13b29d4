import RecordGraph.CommandLine.Arguments
import RecordGraph.CommandLine.Assignment
import RecordGraph.Config.File
import RecordGraph.Session.Write
import RecordGraph.Store.Backend
import RecordGraph.Value.Json
import RecordGraph.ValueTable
import RecordGraph.Workspace.Companion

/-!
# Running commands

A command reads the configuration, opens the database, which is made with its
directory if it is not there, and saves, fetches or deletes one record graph. It
reports in words or as JSON. What was written before a failure stays written. A
file that is no database is noticed at the first statement.
-/
namespace RecordGraph.CommandLine

/-- Why a command failed. -/
inductive CommandError where
  | config (e : Config.FileError)
  | path (e : FileFault)
  | assignment (e : AssignmentError)
  | record (e : Error)
  deriving DecidableEq

def CommandError.message : CommandError → String
  | config e => e.message
  | path e => e.message
  | assignment e => e.message
  | record e => e.message

/-- The record that a command is about. -/
structure Target where
  table : String
  pk : String
  id : Option String

namespace Target

/-- The key that the typed id stands for. -/
def key (t : Target) : Value := (t.id.map Value.ofTyped).getD .null

def start {σ : Type} (t : Target) (state : σ) : Session σ :=
  Session.start t.table t.pk t.key state

end Target

/-- How a command reports: as JSON, or in words, of which only tables are left
when it shall be quiet. -/
structure Mode where
  json : Bool
  quiet : Bool

/-- A result in both forms: sentences, a text that even the quiet get, and JSON. -/
structure Report where
  command : String
  sentences : List String
  text : Option String
  data : Json

/-- What a command prints. -/
def Report.render (m : Mode) (r : Report) : String :=
  if m.json then
    String.ofList ((Json.object [("command", .string r.command), ("data", r.data),
      ("ok", .boolean true)]).indented 0) ++ "\n"
  else
    let sentences := if m.quiet then [] else r.sentences
    String.join ((sentences ++ r.text.toList).map (· ++ "\n"))

section

variable {σ : Type}

/-- Saves assignments, the arguments of which are read first. -/
def save (b : Backend σ) (t : Target) (arguments : List String) (s : Session σ) :
    Except CommandError Report × Session σ :=
  match arguments.mapM splitAssignment with
  | .error e => (.error (.assignment e), s)
  | .ok values =>
    let isNew := decide (s.graph.IsNew Graph.root)
    match (Action.save b values).run s with
    | .error e s => (.error (.record e), s)
    | .ok _ s =>
      let key := s.graph.key Graph.root
      let joined := s.graph.nodes.size - 1
      (.ok {
        command := "save"
        sentences :=
          ["✅ " ++ (if isNew then "Inserted" else "Updated") ++ " `" ++ t.table ++ "`",
            "🔑 " ++ t.pk ++ ": " ++ key.display] ++
          if joined = 0 then [] else ["🔗 joined: " ++ toString joined ++ " record(s) saved"]
        text := none
        data := .object [("inserted", .boolean isNew), ("joined", .integer joined),
          ("key", key.toJson), ("table", .string t.table)] }, s)

/-- Fetches values by path. -/
def fetch (b : Backend σ) (t : Target) (paths : List String) (s : Session σ) :
    Except CommandError Report × Session σ :=
  match (Action.fetch b paths).run s with
  | .error e s => (.error (.record e), s)
  | .ok values s =>
    (.ok {
      command := "fetch"
      sentences := ["🚀 " ++ t.table ++ " " ++ t.pk ++ " = " ++ (s.graph.key Graph.root).display]
      text := some (ValueTable.render paths values)
      data := .array ((paths.zip values).map fun (path, v) =>
        .object [("path", .string path), ("value", v.toJson)]) }, s)

/-- Deletes a record with its joins. -/
def delete (b : Backend σ) (t : Target) (tables : List String) (s : Session σ) :
    Except CommandError Report × Session σ :=
  match (Action.delete b tables).run s with
  | .error e s => (.error (.record e), s)
  | .ok deleted s =>
    let skipped := s.graph.nodes.size - deleted
    (.ok {
      command := "delete"
      sentences :=
        ["✅ 🗑️ Deleted " ++ toString deleted ++ " row(s) from `" ++ t.table ++ "` and its joins"] ++
        if skipped = 0 then [] else
          ["ℹ️ skipped: " ++ toString skipped ++ " joined record(s) without a row"]
      text := none
      data := .object [("deleted", .integer deleted), ("skipped", .integer skipped),
        ("table", .string t.table)] }, s)

end

/-- Writes a configuration that names the database in force. -/
def init (configPath database : String) (primaryKey : Option String) (force : Bool)
    (w : Workspace) : Except CommandError Report × Workspace :=
  let config : Config := ⟨some database, primaryKey⟩
  match config.write w configPath force with
  | .error e => (.error (.config e), w)
  | .ok w =>
    (.ok {
      command := "init"
      sentences := ["✅ Wrote " ++ configPath, "🗄️ database: " ++ database]
      text := none
      data := .object [("config", .string configPath), ("database", .string database),
        ("primary_key", .string config.primaryKeyOrDefault)] }, w)

/-- Runs a command on the record of a database file, which is written back. -/
def onFile (w : Workspace) (f : DatabaseFile) (t : Target)
    (run : {σ : Type} → Backend σ → Target → Session σ → Except CommandError Report × Session σ) :
    Except CommandError Report × Workspace :=
  let w := match f.rows with
    | some rows => w.put f.place (.database rows)
    | none => w
  let (ready, settled) := w.settle f
  match if ready then f.rows else none with
  | none =>
    let (result, s) := run (.refusing "unable to read database file") t (t.start ())
    (result, w.afterCalls f settled .empty (s.calls.map (·.2)))
  | some rows =>
    let b := if settled.AcceptsChanges f then Store.backend else Store.readOnlyBackend
    let (result, s) := run b t (t.start rows)
    let w := w.afterCalls f settled rows (s.calls.map (·.2))
    (result, w.put f.place (.database s.backend))

/-- Runs a command on the record of a database. -/
def onDatabase (w : Workspace) (path : String) (t : Target)
    (run : {σ : Type} → Backend σ → Target → Session σ → Except CommandError Report × Session σ) :
    Except CommandError Report × Workspace :=
  match w.makeParent path with
  | (.error e, w) => (.error (.path e), w)
  | (.ok (), w) =>
    match w.openDatabase? path with
    | none =>
      (.error (.record (.statement ⟨"open " ++ path, "unable to open database file"⟩)), w)
    | some .temporary => ((run Store.backend t (t.start .empty)).1, w)
    | some (.file f) => onFile w f t run

namespace Invocation

/-- The configuration file in force. -/
def configPath (i : Invocation) : String := i.config.getD Config.defaultPath

/-- The database file in force. -/
def databasePath (i : Invocation) (config : Config) : String :=
  (i.database.or config.database).getD (Config.defaultDatabase ".")

/-- Runs a command under a configuration. -/
def execute (i : Invocation) (config : Config) (w : Workspace) :
    Except CommandError Report × Workspace :=
  let database := i.databasePath config
  let target (table : String) (pk id : Option String) : Target :=
    ⟨table, pk.getD config.primaryKeyOrDefault, id⟩
  match i.command with
  | .init primaryKey force => init i.configPath database primaryKey force w
  | .save table pk id arguments =>
    onDatabase w database (target table pk id) fun b t => save b t arguments
  | .fetch table pk id paths =>
    onDatabase w database (target table pk (some id)) fun b t => fetch b t paths
  | .delete table pk id tables =>
    onDatabase w database (target table pk (some id)) fun b t => delete b t tables

/-- Reads the configuration and runs the command. -/
def run (i : Invocation) (w : Workspace) : Except CommandError Report × Workspace :=
  match Config.load w i.configPath with
  | .error e => (.error (.config e), w)
  | .ok config => i.execute (config.getD .empty) w

end Invocation

/-- How a run of the command line ended. -/
inductive Ending where
  | done
  | failed (e : CommandError)
  | misused (e : UsageError)

/-- The exit code: 1 for a command that failed, 2 for arguments that make no sense. -/
def Ending.code : Ending → Nat
  | done => 0
  | failed _ => 1
  | misused _ => 2

/-- The line that tells of a failure. -/
def failureLine (e : CommandError) : String := "❌ " ++ e.message ++ "\n"

/-- A run of the command line: what it printed, how it ended, and the files
that it left. -/
structure Outcome where
  output : String
  ending : Ending
  workspace : Workspace

/-- Words that ask for quiet. -/
def isQuietWord (s : String) : Bool :=
  s == "1" || s.toList.map Char.toLower == ['t', 'r', 'u', 'e']

/-- The answer to the question for the version. -/
def versionLine : String := "dbrecord 0.0.1\n"

/-- Runs the command line on the files of a workspace. -/
def run (quiet : Bool) (args : List String) (w : Workspace) : Outcome :=
  match parse args with
  | .error e => ⟨"", .misused e, w⟩
  | .ok .version => ⟨versionLine, .done, w⟩
  | .ok (.invocation i) =>
    match i.run w with
    | (.ok report, w) => ⟨report.render ⟨i.json, quiet⟩, .done, w⟩
    | (.error e, w) => ⟨"", .failed e, w⟩

end RecordGraph.CommandLine
