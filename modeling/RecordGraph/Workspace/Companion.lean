import RecordGraph.Store.Backend
import RecordGraph.Workspace.Database

/-!
# Companions of databases

Beside a database lie files that are named after it: a journal, from which a
broken change is taken back, a log, in which changes wait, and a lock. They are
looked at before the first statement. As no change is ever broken or waits, what
is found in them is nothing to go by: it is cleared away, or it keeps the database
from answering.
-/
namespace RecordGraph

/-- A journal or log that counts: a directory, or a file that is not empty, of
which the flag says that it starts with a NUL. -/
inductive Companion where
  | directory
  | file (void : Bool)
  deriving DecidableEq

namespace Call

/-- Whether a call makes a database look at its file. -/
def Reaches : Call → Prop
  | query s _ | exec s _ => Store.IsReadable s
  | lastInsertId _ => False

instance : DecidablePred Reaches := by
  intro c; cases c <;> unfold Reaches <;> infer_instance

/-- Whether a call has changed a row of a store, or added one. -/
def Changes (rows : Store) : Call → Prop
  | exec (.insert ..) (.ok _) => True
  | exec (.update table key _) (.ok _) | exec (.delete table key) (.ok _) =>
    ((rows.table? table).bind (·.find? key)).isSome = true
  | _ => False

instance (rows : Store) : DecidablePred (Changes rows) := by
  intro c; unfold Changes; split <;> infer_instance

end Call

namespace DatabaseFile

variable (f : DatabaseFile)

/-- The place beside a database whose name has an ending. -/
def beside (ending : String) : Place :=
  f.place.dropLast ++ (f.place.getLast?.map (·.append ending)).toList

def journal : Place := f.beside "-journal"

def log : Place := f.beside "-wal"

def lock : Place := f.beside ".lock"

/-- Whether nothing has been written to the file yet. -/
def IsBlank : Prop := (f.rows.map Store.tables) = some []

instance : Decidable f.IsBlank := inferInstanceAs (Decidable (_ = _))

/-- Whether statements take the lock. -/
def TakesLock : Prop := f.address.locks = true ∧ f.address.lock ≠ .nothing

instance : Decidable f.TakesLock := inferInstanceAs (Decidable (_ ∧ _))

end DatabaseFile

namespace Workspace

variable (w : Workspace) (f : DatabaseFile)

/-- The journal or log at a place, if it counts. -/
def companion? (p : Place) : Option Companion :=
  match w.occupant? p with
  | none => none
  | some .directory => some .directory
  | some (.file file) =>
    match file.text? with
    | some s => s.toList.head?.map fun c => .file (c = '\x00')
    | none => some (.file false)

/-- Whether something lies where the lock would be made. -/
def IsLocked : Prop := f.address.lock = .directory ∧ (w.occupant? f.lock).isSome = true

instance : Decidable (w.IsLocked f) := inferInstanceAs (Decidable (_ ∧ _))

/-- Whether a journal would tell of a change that was broken. One that is under way
has its journal too, and a directory does not tell whose lock it is. -/
def LooksAtJournal : Prop :=
  ¬ (f.address.lock = .directory ∧ (f.address.locks = true ∨ w.IsLocked f))

instance : Decidable (w.LooksAtJournal f) := inferInstanceAs (Decidable (¬ _))

/-- Looks at the journal. The flag says whether statements may follow. -/
def settleJournal : Bool × Workspace :=
  if w.LooksAtJournal f then
    match w.companion? f.journal with
    | none => (true, w)
    | some .directory => (f.IsBlank, w)
    | some (.file void) =>
      if f.IsBlank then
        (true, if f.address.IsWritable ∨ ¬ f.TakesLock then w.remove f.journal else w)
      else if void then (true, w)
      else if f.address.IsWritable then (true, w.remove f.journal)
      else (false, w)
  else (true, w)

/-- Looks at the log. The flag says whether statements may follow. -/
def settleLog : Bool × Workspace :=
  match w.companion? f.log with
  | none => (true, w)
  | some .directory => (false, w)
  | some (.file _) =>
    if f.IsBlank then (true, w.remove f.log)
    else if f.address.lock = .system ∧ f.TakesLock then
      (true, if f.address.IsWritable then w.remove f.log else w)
    else (false, w)

/-- Looks at all companions, which a frozen database does not have. The flag says
whether statements are answered. -/
def settle : Bool × Workspace :=
  if f.address.frozen then (true, w)
  else if w.IsLocked f ∧ f.TakesLock then (false, w)
  else match w.settleJournal f with
    | (true, w) => w.settleLog f
    | refused => refused

/-- Whether changes are carried out: a journal must be made for them. -/
def AcceptsChanges : Prop :=
  f.address.IsWritable ∧ w.companion? f.journal ≠ some .directory

instance : Decidable (w.AcceptsChanges f) := inferInstanceAs (Decidable (_ ∧ _))

/-- What a workspace comes to by calls to a database with rows, where it is settled
before the first call that reaches the file. Changes make a journal and clear it
away, unless there is a log to write them to. -/
def afterCalls (settled : Workspace) (rows : Store) (calls : List Call) : Workspace :=
  if calls.any (·.Changes rows) ∧ w.companion? f.log = none then settled.remove f.journal
  else if calls.any (·.Reaches) then settled
  else w

/-- Puts a database at a place where none was, and clears away what lay beside it
if there are tables to write. -/
def putDatabase (p : Place) (rows : Store) : Workspace :=
  let f : DatabaseFile := ⟨p, some .empty, .ofPath ⟨[]⟩⟩
  let w := if rows.tables = [] then w else (w.settle f).2.remove f.journal
  w.put p (.database rows)

end Workspace

end RecordGraph
