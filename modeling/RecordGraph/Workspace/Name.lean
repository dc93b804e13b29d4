/-!
# Names of files

Files are named by bytes, which need not make a text. A text names by its UTF-8
form.
-/
namespace RecordGraph

/-- The bytes of a name: of one step, or of a whole path. -/
structure FileName where
  bytes : List UInt8
  deriving DecidableEq

namespace FileName

def ofText (s : String) : FileName := ⟨s.toList.flatMap String.utf8EncodeChar⟩

instance : Coe String FileName := ⟨ofText⟩

/-- The text of a name, if its bytes make one. -/
def text? (n : FileName) : Option String := String.fromUTF8? n.bytes.toByteArray

@[simp] theorem text?_ofText (s : String) : (ofText s).text? = some s := by
  have h : (ofText s).bytes.toByteArray = s.toByteArray := by
    rw [← String.ofList_toList (s := s), String.toByteArray_ofList, String.ofList_toList]
    rfl
  simp only [text?, h, String.fromUTF8?, String.isValidUTF8, dite_true]
  rfl

def size (n : FileName) : Nat := n.bytes.length

/-- A name with an ending. -/
def append (n ending : FileName) : FileName := ⟨n.bytes ++ ending.bytes⟩

/-- What stands between two steps. -/
@[match_pattern] def slash : UInt8 := 47

@[match_pattern] def dot : UInt8 := 46

/-- The step that stays. -/
def stay : FileName := ⟨[dot]⟩

/-- The step that goes up. -/
def up : FileName := ⟨[dot, dot]⟩

end FileName

end RecordGraph
