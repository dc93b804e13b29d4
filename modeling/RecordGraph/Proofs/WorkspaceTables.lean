import RecordGraph.Proofs.Lists
import RecordGraph.Workspace.Companion

/-!
# Tables of a workspace

The tables at a place are those of the database file that lies there. Making directories and
opening a database leaves all tables as they are; looking at its companions may clear away its
journal and its log, and touches nothing else.
-/
namespace RecordGraph

theorem FileName.append_ne {name ending : FileName} (h : ending.bytes ≠ []) :
    name.append ending ≠ name := by
  intro heq
  have hbytes : name.bytes ++ ending.bytes = name.bytes := congrArg FileName.bytes heq
  exact h (List.append_right_eq_self.1 hbytes)

namespace DatabaseFile

variable {f : DatabaseFile}

theorem beside_ne {ending : String} (hplace : f.place ≠ [])
    (hending : (FileName.ofText ending).bytes ≠ []) : f.beside ending ≠ f.place := by
  obtain ⟨parent, name, hsplit⟩ := (List.eq_nil_or_concat f.place).resolve_left hplace
  rw [beside, hsplit]
  simpa using FileName.append_ne hending

theorem journal_ne (hplace : f.place ≠ []) : f.journal ≠ f.place :=
  beside_ne hplace (by decide +kernel)

theorem log_ne (hplace : f.place ≠ []) : f.log ≠ f.place :=
  beside_ne hplace (by decide +kernel)

end DatabaseFile

namespace Workspace

/-- The tables of the database file at a place. -/
def tables (w : Workspace) (p : Place) : List Table :=
  ((w.files.lookup p).bind File.store?).elim [] Store.tables

variable {w w' w'' : Workspace} {p q : Place} {f : DatabaseFile}

theorem tables_of_files_eq (h : w'.files = w.files) (p : Place) : w'.tables p = w.tables p := by
  rw [tables, h, tables]

theorem tables_put_self {rows : Store} : (w.put p (.database rows)).tables p = rows.tables := by
  simp [tables, put, File.store?]

theorem tables_put_of_ne {file : File} (h : q ≠ p) : (w.put p file).tables q = w.tables q := by
  have hlookup : (w.put p file).files.lookup q = w.files.lookup q := by
    have hq : (q == p) = false := beq_false_of_ne h
    simp only [put, List.lookup_cons, hq, lookup_filter_ne h]
  rw [tables, hlookup, tables]

theorem tables_remove_of_ne (h : q ≠ p) : (w.remove p).tables q = w.tables q := by
  have hlookup : (w.remove p).files.lookup q = w.files.lookup q := lookup_filter_ne h
  rw [tables, hlookup, tables]

/-- To put the rows of a place there again changes no tables. -/
theorem tables_put {rows : Store} (h : w.tables p = rows.tables) (q : Place) :
    (w.put p (.database rows)).tables q = w.tables q := by
  by_cases hq : q = p
  · rw [hq, tables_put_self, h]
  · exact tables_put_of_ne hq

/-! ## Directories -/

theorem files_makeDirectory {path : FileName} (h : w.makeDirectory path = .ok w') :
    w'.files = w.files := by
  rw [makeDirectory] at h
  cases hgoal : w.goal path with
  | error e => simp [hgoal, bind, Except.bind] at h
  | ok goal =>
    cases goal with
    | directory => simp [hgoal, bind, Except.bind] at h
    | name parent name slash =>
      cases hlook : w.look parent name with
      | error e => simp [hgoal, hlook, bind, Except.bind] at h
      | ok entry =>
        cases entry with
        | some entry => simp [hgoal, hlook, bind, Except.bind] at h
        | none =>
          simp only [hgoal, hlook, bind, Except.bind, pure, Except.pure, Except.ok.injEq] at h
          rw [← h]
          rfl

theorem files_makeDirectories (fuel : Nat) (path : FileName) (w : Workspace) :
    (makeDirectories fuel path w).2.files = w.files := by
  induction fuel generalizing path w with
  | zero => rfl
  | succ fuel ih =>
    rw [makeDirectories]
    split
    · rfl
    · split
      · next h => exact files_makeDirectory h
      · have habove := ih ((parent? path).getD ⟨[]⟩) w
        split
        · next w₁ hmade =>
          rw [hmade] at habove
          split
          · next h => exact (files_makeDirectory h).trans habove
          · exact habove
        · exact habove
      · rfl

theorem files_makeParent (w : Workspace) (path : FileName) :
    (w.makeParent path).2.files = w.files := by
  rw [makeParent]
  split
  · rfl
  · split
    · rfl
    · exact files_makeDirectories ..

/-! ## Databases -/

/-- An opened database has the tables of its place. A missing one has none. -/
theorem tables_of_rowsAt? {a : Address} {rows : Option Store} (h : w.rowsAt? p a = some rows) :
    w.tables p = rows.elim [] Store.tables := by
  rw [rowsAt?, occupant?] at h
  cases hfile : w.files.lookup p with
  | some file =>
    rw [hfile] at h
    rw [tables, hfile, ← Option.some.inj h]
    rfl
  | none =>
    rw [hfile] at h
    have hnone : w.tables p = [] := by rw [tables, hfile]; rfl
    by_cases hdirectory : w.IsDirectory p
    · simp [hdirectory] at h
    · simp only [if_neg hdirectory] at h
      split at h
      · rw [hnone, ← Option.some.inj h]
        rfl
      · cases h

theorem openDatabase?_eq_file {name : String} (h : w.openDatabase? name = some (.file f)) :
    f.place ≠ [] ∧ w.tables f.place = f.rows.elim [] Store.tables := by
  rw [openDatabase?] at h
  split at h
  · cases h
  · obtain ⟨a, -, h⟩ := Option.bind_eq_some_iff.1 h
    split at h
    · cases h
    · obtain ⟨p, hplace, h⟩ := Option.bind_eq_some_iff.1 h
      split at h
      · obtain ⟨rows, hrows, hfile⟩ := Option.bind_eq_some_iff.1 h
        cases hfile
        refine ⟨?_, tables_of_rowsAt? hrows⟩
        rw [databasePlace?] at hplace
        obtain ⟨q, -, hq⟩ := Option.bind_eq_some_iff.1 hplace
        split at hq
        · cases hq
        · next hsize =>
          cases hq
          exact fun hnil => hsize (.inl hnil)
      · cases h

/-! ## Companions -/

/-- No tables changed, those of a journal and a log beside the database apart. -/
def Spares (f : DatabaseFile) (w w' : Workspace) : Prop :=
  ∀ p, p ≠ f.journal → p ≠ f.log → w'.tables p = w.tables p

namespace Spares

theorem of_tables (h : ∀ p, w'.tables p = w.tables p) : Spares f w w' := fun p _ _ => h p

theorem refl (w : Workspace) : Spares f w w := of_tables fun _ => rfl

theorem trans (h : Spares f w w') (h' : Spares f w' w'') : Spares f w w'' :=
  fun p hjournal hlog => (h' p hjournal hlog).trans (h p hjournal hlog)

theorem journal (w : Workspace) : Spares f w (w.remove f.journal) :=
  fun _ hjournal _ => tables_remove_of_ne hjournal

theorem log (w : Workspace) : Spares f w (w.remove f.log) :=
  fun _ _ hlog => tables_remove_of_ne hlog

end Spares

theorem settleJournal_spares (w : Workspace) : Spares f w (w.settleJournal f).2 := by
  rw [settleJournal]
  split
  · split
    · exact .refl w
    · exact .refl w
    · split
      · split
        · exact .journal w
        · exact .refl w
      · split
        · exact .refl w
        · split
          · exact .journal w
          · exact .refl w
  · exact .refl w

theorem settleLog_spares (w : Workspace) : Spares f w (w.settleLog f).2 := by
  rw [settleLog]
  split
  · exact .refl w
  · exact .refl w
  · split
    · exact .log w
    · split
      · split
        · exact .log w
        · exact .refl w
      · exact .refl w

theorem settle_spares (w : Workspace) : Spares f w (w.settle f).2 := by
  have hjournal := settleJournal_spares (f := f) w
  rw [settle]
  split
  · exact .refl w
  · split
    · exact .refl w
    · split
      · next w₁ hsettled =>
        rw [hsettled] at hjournal
        exact hjournal.trans (settleLog_spares w₁)
      · exact hjournal

theorem afterCalls_spares {settled : Workspace} (h : Spares f w settled) (rows : Store)
    (calls : List Call) : Spares f w (w.afterCalls f settled rows calls) := by
  rw [afterCalls]
  split
  · exact h.trans (.journal settled)
  · split
    · exact h
    · exact .refl w

end Workspace
end RecordGraph
