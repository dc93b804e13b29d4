import RecordGraph.Workspace.Address
import RecordGraph.Workspace.Path

/-!
# Databases of a workspace

Opening a database by its name. Its place is read off the steps alone, so two
dots take back even a step that leads nowhere, and slashes at the end do not
count. A missing file is made if there is a directory for it.
-/
namespace RecordGraph

/-- A database file that has been opened. A file that is no database has no
rows. -/
structure DatabaseFile where
  place : Place
  rows : Option Store
  address : Address

/-- A database that has been opened: rows that nothing keeps, or a file. -/
inductive OpenDatabase where
  | temporary
  | file (f : DatabaseFile)

namespace Workspace

/-- The bytes of a place, with a slash before each name. -/
def placeSize (p : Place) : Nat := p.foldl (fun size name => size + name.size + 1) 0

/-- The bytes that the place of a database stays below on the way. -/
def stepLimit : Nat := 512

/-- The most bytes of the place itself, so that the names of companions fit. -/
def placeLimit : Nat := 504

variable (w : Workspace)

/-- Whether a name may be looked for in a place, which itself may be missing. -/
def admits (p : Place) (name : FileName) : Bool :=
  match w.walk [] p with
  | .ok p => (w.look p name).isOk
  | .error e => e = .notFound

/-- One step from a place, as far as its names tell. -/
def step? (p : Place) (step : FileName) : Option Place :=
  if step = .stay then some p
  else if step = .up then some p.dropLast
  else if placeSize (p ++ [step]) < stepLimit ∧ w.admits p step then some (p ++ [step])
  else none

/-- The place of the database with a path. -/
def databasePlace? (path : FileName) : Option Place := do
  let p ← (steps path).foldlM w.step? (w.start path)
  if p = [] ∨ placeLimit < placeSize p then none else some p

/-- The rows of the file at a place, which is made if it is missing and may be. -/
def rowsAt? (p : Place) (a : Address) : Option (Option Store) :=
  match w.occupant? p with
  | some .directory => none
  | some (.file f) => some f.store?
  | none => if a.access = .create ∧ w.IsDirectory p.dropLast then some (some .empty) else none

/-- Opens a database. -/
def openDatabase? (name : String) : Option OpenDatabase := do
  if '\x00' ∈ name.toList then none
  else
    let a ← Address.ofText? name
    if a.IsTemporary then some .temporary
    else
      let p ← w.databasePlace? a.path
      if a.model.all w.has then return .file ⟨p, ← w.rowsAt? p a, a⟩ else none

end Workspace

end RecordGraph
