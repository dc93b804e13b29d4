import RecordGraph.Backend.Basic
import RecordGraph.Store.Basic

/-!
# Row stores as backends

A row store answers statements in the standard dialect. A refused statement
leaves it as it was. The text of a statement ends at a NUL character, which
leaves a quote open, so a statement with one is refused.
-/
namespace RecordGraph.Store

def failure (s : Statement) (fault : StoreFault) : Failure :=
  ⟨s.render .standard, fault.message⟩

/-- Whether the text of a statement can be read to its end. -/
def IsReadable (s : Statement) : Prop := '\x00' ∉ (s.render .standard).toList

instance (s : Statement) : Decidable (IsReadable s) := inferInstanceAs (Decidable (¬ _))

/-- The backend of a row store. -/
def backend : Backend Store where
  dialect := .standard
  query s store :=
    if IsReadable s then
      match store.query s with
      | .ok row => (.ok row, store)
      | .error e => (.error (failure s e), store)
    else (.error (failure s .unreadable), store)
  exec s store :=
    if IsReadable s then
      match store.exec s with
      | .ok store => (.ok (), store)
      | .error e => (.error (failure s e), store)
    else (.error (failure s .unreadable), store)
  lastInsertId store := (.ok (.integer store.lastInsertId), store)

/-- A row store that answers queries and refuses changes. -/
def readOnlyBackend : Backend Store where
  dialect := .standard
  query := backend.query
  exec s store := (.error (failure s .readOnly), store)
  lastInsertId := backend.lastInsertId

end RecordGraph.Store
