import RecordGraph.Value.Basic

/-!
# Values typed by hand

A typed value is tried as quoted text, null, integer, real and date in this
order; whatever remains is text as it stands.
-/
namespace RecordGraph.Value

/-- What stands between two single quotes at the ends of a text. -/
def unquote? (s : List Char) : Option (List Char) :=
  match s with
  | '\'' :: rest => if rest.getLast? = some '\'' then some rest.dropLast else none
  | _ => none

/-- The spellings of null: four letters in any case. -/
def IsNullWord (s : List Char) : Prop := s.map Char.toLower = ['n', 'u', 'l', 'l']

instance : DecidablePred IsNullWord := fun _ => inferInstanceAs (Decidable (_ = _))

/-- Reads a typed value. A text is never changed: it is the whole input, or
exactly what single quotes enclose. -/
def ofTyped (raw : String) : Value :=
  let s := Text.trim raw.toList
  match unquote? s with
  | some inner => text (String.ofList inner)
  | none =>
    if IsNullWord s then null
    else match Text.readInt64 s with
      | some n => integer n
      | none => match (Binary64.read s).filter (fun x => x.IsFinite) with
        | some x => real x
        | none => match DateTime.read s with
          | some d => dateTime d
          | none => text raw

end RecordGraph.Value
