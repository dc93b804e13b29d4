import RecordGraph.CommandLine.Run
import RecordGraph.Store.Dump

/-!
# The program

Reads the files that a command line names into a workspace, runs it there, and
writes back what has changed. A database is kept as the text of its statements.
-/
namespace RecordGraph

/-- What a text holds: a database if it makes tables. -/
def File.ofText (text : String) : File :=
  match Store.ofDump? text with
  | some store => if store.tables = [] then .text text else .database store
  | none => .text text

def File.toText : File → String
  | .text s => s
  | .database store => store.dump

namespace Workspace

/-- The path of a place from the root. Only names that are texts can be reached. -/
def pathTo (p : Place) : IO String :=
  match p.mapM FileName.text? with
  | some names => return "/" ++ "/".intercalate names
  | none => throw (.userError "a file name is no text")

/-- Adds what is on disk at a place, if anything. -/
def load (w : Workspace) (p : Place) : IO Workspace := do
  if (w.occupant? p).isSome ∨ ¬ w.IsDirectory p.dropLast then return w
  match ← (IO.FS.readFile (← pathTo p)).toBaseIO with
  | .ok text => return w.put p (.ofText text)
  | .error (.inappropriateType ..) => return w.addDirectory p
  | .error (.noFileOrDirectory ..) | .error (.invalidArgument ..) => return w
  | .error e => throw e

/-- Adds what is on disk at the places that a path passes. -/
def loadPath (w : Workspace) (path : FileName) : IO Workspace := do
  if 0 ∈ path.bytes then return w
  let (w, _) ← (steps path).foldlM (fun (w, p) step => do
      let p := if step = .stay then p else if step = .up then p.dropLast else p ++ [step]
      return (← w.load p, p))
    (w, w.start path)
  return w

/-- Adds a database with all that opening it looks at. -/
def loadDatabase (w : Workspace) (name : String) : IO Workspace := do
  let w ← w.loadPath name
  match Address.ofText? name with
  | none => return w
  | some a =>
    let w ← w.loadPath a.path
    let w ← (a.model.map w.loadPath).getD (pure w)
    match w.databasePlace? a.path with
    | none => return w
    | some p =>
      let f : DatabaseFile := ⟨p, none, a⟩
      [f.journal, f.log, f.lock].foldlM load w

/-- The files of a command line: the configuration and the database. -/
def ofArguments (args : List String) : IO Workspace := do
  let home := empty (steps (← IO.currentDir).toString)
  match CommandLine.parse args with
  | .error _ | .ok .version => return home
  | .ok (.invocation i) =>
    let w ← home.loadPath i.configPath
    w.loadDatabase (i.databasePath ((Config.load w i.configPath).toOption.join.getD .empty))

/-- Removes the files, makes the directories and writes the files that differ from
those before. -/
def save (w before : Workspace) : IO Unit := do
  for (p, _) in before.files do
    unless (w.files.lookup p).isSome do IO.FS.removeFile (← pathTo p)
  for p in w.directories.reverse do
    unless before.directories.contains p do IO.FS.createDirAll (← pathTo p)
  for (p, file) in w.files do
    unless (before.files.lookup p).map File.toText = some file.toText do
      IO.FS.writeFile (← pathTo p) file.toText

end Workspace

/-- Runs the command line on the files on disk; the exit code tells how it ended. -/
def CommandLine.runOnDisk (args : List String) : IO UInt32 := do
  let quiet := isQuietWord ((← IO.getEnv "DBRECORD_QUIET").getD "")
  let before ← Workspace.ofArguments args
  let outcome := run quiet args before
  outcome.workspace.save before
  IO.print outcome.output
  match outcome.ending with
  | .done => pure ()
  | .failed e => IO.eprint (failureLine e)
  | .misused e => IO.eprintln e.message
  return outcome.ending.code.toUInt32

end RecordGraph

/-- The command `dbrecord`. -/
def main (args : List String) : IO UInt32 := RecordGraph.CommandLine.runOnDisk args
