import RecordGraph.Store.Basic
import RecordGraph.Workspace.Name

/-!
# Workspaces

The files that a command sees, each at a place below the root. A file is a text
or a database; one without content is both. What something lies in, and where
paths start, is a directory.
-/
namespace RecordGraph

/-- Names from the root down. -/
abbrev Place := List FileName

inductive File where
  | text (s : String)
  | database (s : Store)

namespace File

/-- The text of a file; a database with tables has none. -/
def text? : File → Option String
  | text s => some s
  | database store => if store.tables = [] then some "" else none

/-- The rows of a file; a text with characters has none. -/
def store? : File → Option Store
  | text s => if s = "" then some .empty else none
  | database store => some store

end File

/-- What is found at a place. -/
inductive Entry where
  | directory
  | file (f : File)

/-- Files by place, the directory where relative paths start, and directories
that need not hold anything. -/
structure Workspace where
  home : Place
  files : List (Place × File)
  directories : List Place

namespace Workspace

/-- A workspace without files. -/
def empty (home : Place) : Workspace := ⟨home, [], []⟩

variable (w : Workspace)

/-- Home, directories that were made, what files lie in, and all above these. -/
def IsDirectory (p : Place) : Prop :=
  ∃ d ∈ w.home :: w.directories ++ w.files.map (·.1.dropLast), p <+: d

instance (p : Place) : Decidable (w.IsDirectory p) := inferInstanceAs (Decidable (∃ _ ∈ _, _))

def occupant? (p : Place) : Option Entry :=
  match w.files.lookup p with
  | some f => some (.file f)
  | none => if w.IsDirectory p then some .directory else none

/-- Puts a file at a place, instead of the file that was there. -/
def put (p : Place) (f : File) : Workspace :=
  { w with files := (p, f) :: w.files.filter (·.1 ≠ p) }

@[simp] theorem occupant?_put (p : Place) (f : File) :
    (w.put p f).occupant? p = some (.file f) := by
  simp [occupant?, put]

/-- Takes the file from a place. The directory in which it lay stays. -/
def remove (p : Place) : Workspace :=
  { w with files := w.files.filter (·.1 ≠ p), directories := p.dropLast :: w.directories }

def addDirectory (p : Place) : Workspace := { w with directories := p :: w.directories }

end Workspace

end RecordGraph
