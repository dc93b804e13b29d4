import RecordGraph.Workspace.Basic

/-!
# Paths

A path names a file or directory by steps from the root or from home: a name
goes down, two dots go up, and a single dot stays. What a step goes down to must
be a directory unless it is the last one. The faults and the order in which they
are noticed are those of the operating system.
-/
namespace RecordGraph

/-- Why a path does not lead to what is asked for. -/
inductive FileFault where
  | notFound
  | alreadyExists
  | notDirectory
  | isDirectory
  | nameTooLong
  | nulInName
  | notText
  deriving DecidableEq

def FileFault.message : FileFault → String
  | notFound => "No such file or directory (os error 2)"
  | alreadyExists => "File exists (os error 17)"
  | notDirectory => "Not a directory (os error 20)"
  | isDirectory => "Is a directory (os error 21)"
  | nameTooLong => "File name too long (os error 36)"
  | nulInName => "file name contained an unexpected NUL byte"
  | notText => "stream did not contain valid UTF-8"

namespace Workspace

/-- The most bytes that a name may have. -/
def nameLimit : Nat := 255

/-- The most bytes that a path may have. -/
def pathLimit : Nat := 4095

/-- The steps of a path; needless slashes are no steps. -/
def steps (path : FileName) : List FileName :=
  ((path.bytes.splitOn FileName.slash).filter (· ≠ [])).map FileName.mk

/-- Where a path leads: to a directory, as the root or by dots, or to a name in a
directory, which may be free. The flag says that a slash stands behind the name. -/
inductive Goal where
  | directory
  | name (parent : Place) (name : FileName) (slash : Bool)

/-! ## Following paths -/

section

variable (w : Workspace)

/-- Where a path starts. -/
def start (path : FileName) : Place :=
  if path.bytes.head? = some FileName.slash then [] else w.home

/-- What has a name in a directory. -/
def look (p : Place) (name : FileName) : Except FileFault (Option Entry) :=
  if name.size ≤ nameLimit then .ok (w.occupant? (p ++ [name])) else .error .nameTooLong

/-- The directory to which steps lead. -/
def walk (p : Place) : List FileName → Except FileFault Place
  | [] => .ok p
  | step :: steps =>
    if step = .stay then walk p steps
    else if step = .up then walk p.dropLast steps
    else match w.look p step with
      | .error e => .error e
      | .ok none => .error .notFound
      | .ok (some (.file _)) => .error .notDirectory
      | .ok (some .directory) => walk (p ++ [step]) steps

/-- Where a path leads. -/
def goal (path : FileName) : Except FileFault Goal :=
  let steps := steps path
  if 0 ∈ path.bytes then .error .nulInName
  else if path.bytes = [] then .error .notFound
  else if pathLimit < path.size then .error .nameTooLong
  else match steps.getLast? with
    | none => .ok .directory
    | some name =>
      if name = .stay ∨ name = .up then (w.walk (w.start path) steps).map fun _ => .directory
      else (w.walk (w.start path) steps.dropLast).map fun parent =>
        .name parent name (path.bytes.getLast? = some FileName.slash)

/-- What a path names. -/
def find (path : FileName) : Except FileFault Entry := do
  match ← w.goal path with
  | .directory => return .directory
  | .name parent name slash =>
    match ← w.look parent name with
    | none => .error .notFound
    | some .directory => return .directory
    | some (.file f) => if slash then .error .notDirectory else return .file f

/-- Whether a path names anything. -/
def has (path : FileName) : Bool := (w.find path).isOk

def hasDirectory (path : FileName) : Bool :=
  match w.find path with
  | .ok .directory => true
  | _ => false

/-! ## Files by path -/

/-- The text of the file that a path names. -/
def readText (path : FileName) : Except FileFault String := do
  match ← w.find path with
  | .directory => .error .isDirectory
  | .file f => match f.text? with
    | some s => return s
    | none => .error .notText

/-- Puts a text where a path leads. -/
def writeText (path : FileName) (s : String) : Except FileFault Workspace := do
  match ← w.goal path with
  | .directory | .name _ _ true => .error .isDirectory
  | .name parent name false =>
    match ← w.look parent name with
    | some .directory => .error .isDirectory
    | _ => return w.put (parent ++ [name]) (.text s)

end

/-! ## Directories by path -/

open FileName (slash dot)

/-- What a path starts with before the first name, a slash or a dot, and what
follows it. -/
def splitStart : List UInt8 → List UInt8 × List UInt8
  | slash :: s => ([slash], s)
  | [dot] => ([dot], [])
  | dot :: slash :: s => ([dot], slash :: s)
  | s => ([], s)

/-- Drops slashes and single dots at the end of bytes that are given backwards. -/
def dropNeedless : List UInt8 → List UInt8
  | slash :: s => dropNeedless s
  | [dot] => []
  | dot :: slash :: s => dropNeedless s
  | s => s

/-- A path without its last step: empty if that was the only one, and nothing if
there was none. -/
def parent? (path : FileName) : Option FileName :=
  let (start, body) := splitStart path.bytes
  match dropNeedless body.reverse with
  | [] => if start = [dot] then some ⟨[]⟩ else none
  | s => some ⟨start ++ (dropNeedless (s.dropWhile (· ≠ slash)).tail).reverse⟩

/-- Makes the directory that a path names. -/
def makeDirectory (w : Workspace) (path : FileName) : Except FileFault Workspace := do
  match ← w.goal path with
  | .directory => .error .alreadyExists
  | .name parent name _ =>
    match ← w.look parent name with
    | some _ => .error .alreadyExists
    | none => return w.addDirectory (parent ++ [name])

/-- Makes the directory that a path names and those above it, as far as they are
missing; `fuel` bounds their number. Those made before a fault stay. -/
def makeDirectories : Nat → FileName → Workspace → Except FileFault Unit × Workspace
  | 0, _, w => (.error .notFound, w)
  | fuel + 1, path, w =>
    let unlessThere (e : FileFault) (w : Workspace) : Except FileFault Unit × Workspace :=
      (if w.hasDirectory path then .ok () else .error e, w)
    if path.bytes = [] then (.ok (), w)
    else match w.makeDirectory path with
      | .ok w => (.ok (), w)
      | .error .notFound =>
        match makeDirectories fuel ((parent? path).getD ⟨[]⟩) w with
        | (.ok (), w) =>
          match w.makeDirectory path with
          | .ok w => (.ok (), w)
          | .error e => unlessThere e w
        | failed => failed
      | .error e => unlessThere e w

/-- Makes what a path shall lie in. -/
def makeParent (w : Workspace) (path : FileName) : Except FileFault Unit × Workspace :=
  match parent? path with
  | none => (.ok (), w)
  | some parent =>
    if parent.bytes = [] ∨ w.has parent then (.ok (), w)
    else makeDirectories (path.size + 1) parent w

end Workspace

end RecordGraph
