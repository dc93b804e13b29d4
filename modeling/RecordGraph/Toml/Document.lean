import RecordGraph.Toml.Scalar

/-!
# TOML documents

A document is a tree of tables. A table is remembered with the way in which it
came to be, because only some ways may be mixed: a header defines a table once,
dotted keys extend the tables that dotted keys made, and an inline table is
closed.
-/
namespace RecordGraph.Toml

/-- How a table came to be: on the way to another header, by its own header, by
a dotted key, or inline. -/
inductive Origin where
  | implied
  | header
  | dotted
  | inline
  deriving DecidableEq

inductive Item where
  | scalar (v : Scalar)
  | array (items : List Item)
  | table (origin : Origin) (entries : List (String × Item))
  | tables (elements : List (List (String × Item)))

/-- The entries of a table in the order in which they were added. -/
abbrev Entries := List (String × Item)

namespace Entries

def add (entries : Entries) (key : String) (item : Item) : Entries := entries ++ [(key, item)]

def replace (entries : Entries) (key : String) (item : Item) : Entries :=
  entries.map fun (k, v) => if k = key then (k, item) else (k, v)

/-- Adds an entry under a dotted key. `isOpen` says that an entry may be added
here: not so in a table that headers made, unless a new table takes it. The key
goes on in the last element of an array of tables. -/
def insert (isOpen : Bool) (item : Item) : List String → Entries → Option Entries
  | [], _ => none
  | [key], entries =>
    if isOpen && (entries.lookup key).isNone then some (entries.add key item) else none
  | key :: path, entries =>
    match entries.lookup key with
    | none => (insert true item path []).map fun sub => entries.add key (.table .dotted sub)
    | some (.table .dotted sub) =>
      (insert true item path sub).map fun sub => entries.replace key (.table .dotted sub)
    | some (.table .implied sub) =>
      (insert false item path sub).map fun sub => entries.replace key (.table .implied sub)
    | some (.tables elements) =>
      match elements.getLast? with
      | none => none
      | some last => (insert false item path last).map fun last =>
        entries.replace key (.tables (elements.dropLast ++ [last]))
    | some _ => none

/-- Changes the table at a path of headers, which makes tables on its way. A
path through an array of tables goes on in its last element. -/
def modifyAt (f : Entries → Option Entries) : List String → Entries → Option Entries
  | [], entries => f entries
  | key :: path, entries =>
    match entries.lookup key with
    | none => (modifyAt f path []).map fun sub => entries.add key (.table .implied sub)
    | some (.table .inline _) => none
    | some (.table origin sub) =>
      (modifyAt f path sub).map fun sub => entries.replace key (.table origin sub)
    | some (.tables elements) =>
      match elements.getLast? with
      | none => none
      | some last => (modifyAt f path last).map fun last =>
        entries.replace key (.tables (elements.dropLast ++ [last]))
    | some _ => none

/-- Defines the table of a header `[path.key]`. -/
def openTable (path : List String) (key : String) (entries : Entries) : Option Entries :=
  entries.modifyAt (fun entries => match entries.lookup key with
    | none => some (entries.add key (.table .header []))
    | some (.table .implied sub) => some (entries.replace key (.table .header sub))
    | some _ => none) path

/-- Adds an element to the array of tables of a header `[[path.key]]`. -/
def openElement (path : List String) (key : String) (entries : Entries) : Option Entries :=
  entries.modifyAt (fun entries => match entries.lookup key with
    | none => some (entries.add key (.tables [[]]))
    | some (.tables elements) => some (entries.replace key (.tables (elements ++ [[]])))
    | some _ => none) path

end Entries

/-- A document while it is read: its entries, and the path of the last header. -/
structure Document where
  entries : Entries
  header : List String

namespace Document

def empty : Document := ⟨[], []⟩

/-- Adds an entry to the table of the last header. -/
def insert (d : Document) (path : List String) (item : Item) : Option Document :=
  (d.entries.modifyAt (Entries.insert true item path) d.header).map fun entries =>
    { d with entries }

def openTable (d : Document) (path : List String) : Option Document :=
  match path.getLast? with
  | none => none
  | some key => (d.entries.openTable path.dropLast key).map fun entries => ⟨entries, path⟩

def openElement (d : Document) (path : List String) : Option Document :=
  match path.getLast? with
  | none => none
  | some key => (d.entries.openElement path.dropLast key).map fun entries => ⟨entries, path⟩

end Document
end RecordGraph.Toml
