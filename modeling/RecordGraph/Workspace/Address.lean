import RecordGraph.Text.Digits
import RecordGraph.Workspace.Name

/-!
# Addresses of databases

A database is named by a path, or by an address: the scheme `file:`, an
authority that is empty or the local host, a path, options after a question
mark, and a fragment that does not count. In the path and in the options any
byte may stand as two hexadecimal digits behind a percent sign; a zero byte ends
the piece in which it stands.
-/
namespace RecordGraph

/-- What an open database may be used for. -/
inductive Access where
  | readOnly
  | readWrite
  | create
  | memory
  deriving DecidableEq

namespace Access

/-- The access that a mode asks for. -/
def ofMode? : String → Option Access
  | "ro" => some readOnly
  | "rw" => some readWrite
  | "rwc" => some create
  | "memory" => some memory
  | _ => none

/-- Memory may be asked for at any time, and given up for anything. -/
def rank : Access → Nat
  | readOnly => 0
  | readWrite => 1
  | create => 2
  | memory => 3

/-- Whether an access may be changed to another one, which never grants more. -/
def Allows (a b : Access) : Prop := b = memory ∨ b.rank ≤ a.rank

instance (a b : Access) : Decidable (a.Allows b) := inferInstanceAs (Decidable (_ ∨ _))

end Access

/-- What keeps others from a database: a lock of the system, a directory beside
its file, or nothing. -/
inductive Lock where
  | system
  | directory
  | nothing
  deriving DecidableEq

/-- The path of a database and how it is to be opened. A frozen file is never
written to, though it may be made. The lock is taken only if `locks` says so. What
is made gets the permissions of a model, which then has to be there. -/
structure Address where
  path : FileName
  access : Access
  frozen : Bool
  lock : Lock
  locks : Bool
  model : Option FileName
  deriving DecidableEq

namespace Address

/-- A plain path. -/
def ofPath (path : FileName) : Address := ⟨path, .create, false, .system, true, none⟩

/-- Whether the rows are held in memory only. -/
def IsTemporary (a : Address) : Prop :=
  a.path.bytes = [] ∨ a.path = .ofText ":memory:" ∨ a.access = .memory

instance (a : Address) : Decidable a.IsTemporary := inferInstanceAs (Decidable (_ ∨ _))

/-- Whether a file may be written to. -/
def IsWritable (a : Address) : Prop := a.access ≠ .readOnly ∧ a.frozen = false

instance (a : Address) : Decidable a.IsWritable := inferInstanceAs (Decidable (_ ∧ _))

/-! ## Pieces -/

/-- The bytes that a piece of an address stands for. -/
def decode : List Char → List UInt8
  | '%' :: a :: b :: s =>
    match Text.hexValue? a, Text.hexValue? b with
    | some high, some low =>
      if high * 16 + low = 0 then [] else UInt8.ofNat (high * 16 + low) :: decode s
    | _, _ => UInt8.ofNat '%'.toNat :: decode (a :: b :: s)
  | c :: s => String.utf8EncodeChar c ++ decode s
  | [] => []

def decodeName (s : List Char) : FileName := ⟨decode s⟩

/-- What stands before the first of some character, and what stands after it. -/
def splitAt (c : Char) (s : List Char) : List Char × List Char :=
  (s.takeWhile (· ≠ c), (s.dropWhile (· ≠ c)).tail)

/-- Takes the authority off, which has to be this host. -/
def afterAuthority? : List Char → Option (List Char)
  | '/' :: '/' :: s =>
    let host := String.ofList (s.takeWhile (· ≠ '/'))
    if host = "" ∨ host = "localhost" then some (s.dropWhile (· ≠ '/')) else none
  | s => some s

/-- The options with their values; those without a name do not count. -/
def readOptions (s : List Char) : List (FileName × FileName) :=
  let options := (s.splitOn '&').map fun option =>
    let (name, value) := splitAt '=' option
    (decodeName name, decodeName value)
  options.filter (·.1.bytes ≠ [])

/-! ## Options -/

/-- The value of the first option of a name. -/
def option? (options : List (FileName × FileName)) (name : String) : Option FileName :=
  options.lookup (.ofText name)

/-- The number at the start of a text in lower case, hexadecimal behind `0x`. -/
def leadingNumber : List Char → Nat
  | '0' :: 'x' :: s => Text.leadingHex 0 s
  | s => Text.ofDigits (Text.spanDigits s).1

/-- Whether an option is switched on: by a word, or by a number that fits 32 bits
with a sign and is not zero in its lowest byte. -/
def IsOn (value : FileName) : Prop :=
  let word := value.bytes.map fun b => (Char.ofNat b.toNat).toLower
  if word.head?.any Char.isDigit then
    leadingNumber word ≤ Int32.maxValue.toNatClampNeg ∧ leadingNumber word % 256 ≠ 0
  else word ∈ ["on".toList, "yes".toList, "true".toList]

instance (value : FileName) : Decidable (IsOn value) := by
  unfold IsOn; infer_instance

/-- The most bytes that rows in memory are named by. -/
def memoryNameLimit : Nat := 1016

/-- The last system asked for. It holds files, or it holds rows in memory. -/
def applySystem (options : List (FileName × FileName)) (a : Address) : Option Address :=
  match option? options.reverse "vfs" with
  | none => some a
  | some name => do
    match ← name.text? with
    | "unix" | "unix-excl" => some a
    | "unix-dotfile" => some { a with lock := .directory }
    | "unix-none" => some { a with lock := .nothing }
    | "memdb" =>
      if a.IsTemporary ∨ a.path.size ≤ memoryNameLimit then some { a with access := .memory }
      else none
    | _ => none

/-- Carries out one option that may be refused; others do not count here. -/
def applyOption (a : Address) (option : FileName × FileName) : Option Address :=
  let (name, value) := option
  if name = .ofText "cache" then
    if value = .ofText "shared" ∨ value = .ofText "private" then some a else none
  else if name = .ofText "mode" then do
    let access ← Access.ofMode? (← value.text?)
    if a.access.Allows access then some { a with access := access } else none
  else some a

/-- Whether the first option of a name is switched on. -/
def switchedOn (options : List (FileName × FileName)) (name : String) : Bool :=
  (option? options name).any fun value => IsOn value

/-- Reads the name of a database; nothing if it asks for what there is not. -/
def ofText? (text : String) : Option Address :=
  match text.toList with
  | 'f' :: 'i' :: 'l' :: 'e' :: ':' :: s => do
    let s ← afterAuthority? s
    let (s, _) := splitAt '#' s
    let (path, query) := splitAt '?' s
    let options := readOptions query
    let a ← options.foldlM applyOption (ofPath (decodeName path))
    applySystem options { a with
      frozen := switchedOn options "immutable"
      locks := ¬ switchedOn options "nolock"
      model := option? options "modeof" }
  | _ => some (ofPath text)

end Address

end RecordGraph
