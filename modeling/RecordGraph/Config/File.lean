import RecordGraph.Config.Basic
import RecordGraph.Workspace.Path

/-!
# Configuration files

Reading and writing the configuration of a workspace. What a file held before
never matters to a write that is forced.
-/
namespace RecordGraph.Config

/-- Why a configuration file could not be read or written. -/
inductive FileError where
  | malformed (path text : String)
  | alreadyExists (path : String)
  | fault (e : FileFault)
  deriving DecidableEq

def FileError.message : FileError → String
  | malformed path text => (complaint? text).getD ("not a configuration: " ++ path)
  | alreadyExists path => "config already exists at " ++ path ++ " (use --force to overwrite)"
  | fault e => e.message

/-- Reads a configuration file; nothing if there is none. -/
def load (w : Workspace) (path : String) : Except FileError (Option Config) :=
  if w.has path then
    match w.readText path with
    | .error e => .error (.fault e)
    | .ok text => match ofText? text with
      | some c => .ok (some c)
      | none => .error (.malformed path text)
  else .ok none

/-- Writes a configuration file. What is there already is replaced only by force. -/
def write (w : Workspace) (path : String) (c : Config) (force : Bool) :
    Except FileError Workspace :=
  if w.has path ∧ force = false then .error (.alreadyExists path)
  else (w.writeText path c.toText).mapError .fault

end RecordGraph.Config
