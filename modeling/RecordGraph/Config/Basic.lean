import RecordGraph.Toml.Complaint

/-!
# Configuration

A configuration file may name the database file and the key column. It is a
TOML document of which these two entries count.
-/
namespace RecordGraph

structure Config where
  database : Option String
  primaryKey : Option String
  deriving DecidableEq

namespace Config

def empty : Config := ⟨none, none⟩

def defaultPrimaryKey : String := "id"

/-- The configuration file, if no other is named. -/
def defaultPath : String := "dbrecord.toml"

/-- A path below another one. -/
def joinPath (base name : String) : String :=
  if base = "" ∨ base.toList.getLast? = some '/' then base ++ name else base ++ "/" ++ name

/-- The database file below a directory, if no other is named. -/
def defaultDatabase (base : String) : String :=
  joinPath (joinPath base ".dbrecord") "dbrecord.db"

/-- The key column in force. -/
def primaryKeyOrDefault (c : Config) : String := c.primaryKey.getD defaultPrimaryKey

/-- A line `name = "text"`, if there is a text. -/
def entry (name : String) : Option String → List Char
  | none => []
  | some s => name.toList ++ ' ' :: '=' :: ' ' :: (Toml.quote s.toList ++ ['\n'])

/-- The text of a configuration file. -/
def toText (c : Config) : String :=
  String.ofList (entry "database" c.database ++ entry "primary_key" c.primaryKey)

/-- The text of an entry, which may be absent but must not be anything else. -/
def text? (entries : Toml.Entries) (key : String) : Option (Option String) :=
  match entries.lookup key with
  | none => some none
  | some (.scalar (.string s)) => some (some s)
  | some _ => none

/-- Reads a configuration file; nothing if it is no TOML or an entry is no text. -/
def ofText? (text : String) : Option Config := do
  let entries ← Toml.parse text
  return ⟨← text? entries "database", ← text? entries "primary_key"⟩

/-- Whether an entry that counts is no text, or goes on under dots. -/
def isMistyped (e : Toml.PlacedEntry) : Bool :=
  match e.key, e.item with
  | [_], .scalar (.string _) => false
  | key :: _, _ => key == "database" || key == "primary_key"
  | [], _ => false

/-- Complains about the value that stands first in place of a text. There is no
complaint about tables that headers or dots make. -/
def complaint? (text : String) : Option String := do
  let _ ← Toml.parse text
  let s := Toml.lines text
  let e ← (Toml.leadingEntries (s.length + 1) s).find? isMistyped
  if e.key.length = 1 then some (e.complaint text "a string") else none

end Config
end RecordGraph
