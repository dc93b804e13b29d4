import RecordGraph.CommandLine.Run
import RecordGraph.Proofs.AssignmentSplit
import RecordGraph.Proofs.ResolvedFirst
import RecordGraph.Proofs.WorkspaceTables

/-!
# Runs that lead nowhere

A command that is given a path that is none fails before it writes, whatever database it is run
on. So the run ends with the code of a failure, and all tables keep their rows.
-/
namespace RecordGraph

theorem Store.backend_isSteady : Store.backend.IsSteady := by
  intro q store
  change (if IsReadable q then _ else _ : Except Failure (Option Row) × Store).2 = store
  split
  · cases store.query q <;> rfl
  · rfl

theorem Store.readOnlyBackend_isSteady : Store.readOnlyBackend.IsSteady := Store.backend_isSteady

namespace CommandLine

open RecordGraph.Workspace (Spares)

/-- The command is given an argument that assigns nothing, or a table path that is none. -/
def Command.Misdirects : Command → Prop
  | .save _ _ _ arguments => ∃ raw ∈ arguments, Misassigns raw
  | .delete _ _ _ tables => ∃ path ∈ tables, ∃ e, TableSpec.parsePath path = .error e
  | _ => False

/-- The database file that a path leads to, once its directory is made. -/
def fileOf? (path : String) (w : Workspace) : Option DatabaseFile :=
  match w.makeParent path with
  | (.error _, _) => none
  | (.ok (), w) =>
    match w.openDatabase? path with
    | some (.file f) => some f
    | _ => none

/-- The database file that a command opens. -/
def Invocation.file? (i : Invocation) (w : Workspace) : Option DatabaseFile :=
  match Config.load w i.configPath with
  | .error _ => none
  | .ok config => fileOf? (i.databasePath (config.getD .empty)) w

/-- All tables stay, apart from those at the places of a journal and a log of the database file,
if there is one. -/
def SparesTables (file? : Option DatabaseFile) (w w' : Workspace) : Prop :=
  ∀ p, (∀ f, file? = some f → p ≠ f.journal ∧ p ≠ f.log) → w'.tables p = w.tables p

/-- On any backend the command fails, and all that it sends is selections. -/
def FailsFirst (run : {σ : Type} → Backend σ → Target → Session σ →
    Except CommandError Report × Session σ) : Prop :=
  ∀ {σ : Type} (b : Backend σ) (t : Target) (s : Session σ), s.graph.WellFormed →
    ∃ e s', run b t s = (.error e, s') ∧ s.SelectsOnly b s'

theorem save_failsFirst {arguments : List String} (h : ∃ raw ∈ arguments, Misassigns raw) :
    FailsFirst fun b t => save b t arguments := by
  intro σ b t s hg
  obtain ⟨raw, hraw, hbad⟩ := h
  cases hvalues : arguments.mapM splitAssignment with
  | error e =>
    have hrun : save b t arguments s = (.error (.assignment e), s) := by rw [save, hvalues]
    exact ⟨_, _, hrun, .refl s⟩
  | ok values =>
    obtain ⟨⟨path, v⟩, hmem, hsplit⟩ := exists_of_mapM_ok hvalues hraw
    rcases hbad.splitAssignment with ⟨e, he⟩ | ⟨path', v', pe, hsplit', hpath⟩
    · cases he.symm.trans hsplit
    · obtain ⟨rfl, rfl⟩ := Prod.mk.inj (Except.ok.inj (hsplit'.symm.trans hsplit))
      obtain ⟨e, s', hsave, hselects⟩ :=
        Action.saveAt_malformed (b := b) (n := Graph.root) hg hmem hpath
      have hvalid : (Action.save b values).run s = .error e s' := hsave
      have hrun : save b t arguments s = (.error (.record e), s') := by
        simp only [save, hvalues, hvalid]
      exact ⟨_, _, hrun, hselects⟩

theorem delete_failsFirst {tables : List String}
    (h : ∃ path ∈ tables, ∃ e, TableSpec.parsePath path = .error e) :
    FailsFirst fun b t => delete b t tables := by
  intro σ b t s hg
  obtain ⟨path, hmem, pe, hpath⟩ := h
  obtain ⟨e, s', hdelete, hselects⟩ :=
    Action.deleteAt_malformed (b := b) (n := Graph.root) hg hmem hpath
  have hvalid : (Action.delete b tables).run s = .error e s' := hdelete
  have hrun : delete b t tables s = (.error (.record e), s') := by
    simp only [delete, hvalid]
  exact ⟨_, _, hrun, hselects⟩

theorem fileOf?_place {path : String} {w : Workspace} {f : DatabaseFile}
    (h : fileOf? path w = some f) : f.place ≠ [] := by
  rw [fileOf?] at h
  split at h
  · cases h
  · split at h
    · next hopen =>
      cases h
      exact (Workspace.openDatabase?_eq_file hopen).1
    · cases h

theorem file?_place {i : Invocation} {w : Workspace} {f : DatabaseFile}
    (h : i.file? w = some f) : f.place ≠ [] := by
  rw [Invocation.file?] at h
  split at h
  · cases h
  · exact fileOf?_place h

variable {run : {σ : Type} → Backend σ → Target → Session σ →
    Except CommandError Report × Session σ} {w : Workspace} {f : DatabaseFile} {t : Target}

theorem FailsFirst.onStore (h : FailsFirst run) (b : Backend Store) (hb : b.IsSteady)
    (rows : Store) : ∃ e s', run b t (t.start rows) = (.error e, s') ∧ s'.backend = rows := by
  obtain ⟨e, s', hrun, hselects⟩ := h b t (t.start rows) (Graph.wellFormed_single ..)
  exact ⟨e, s', hrun, hselects.backend_eq hb⟩

/-- On a file the rows that are written back are those that were read. -/
theorem FailsFirst.onFile (h : FailsFirst run) (hplace : f.place ≠ [])
    (hrows : w.tables f.place = f.rows.elim [] Store.tables) :
    ∃ e w', onFile w f t run = (.error e, w') ∧ Spares f w w' := by
  obtain ⟨e, s', hrefused, -⟩ := h (.refusing "unable to read database file") t (t.start ())
    (Graph.wellFormed_single ..)
  have hspares {w₁ : Workspace} (hput : Spares f w w₁) (rows : Store) (calls : List Call) :
      Spares f w (w₁.afterCalls f (w₁.settle f).2 rows calls) :=
    hput.trans (Workspace.afterCalls_spares (Workspace.settle_spares w₁) rows calls)
  cases hopened : f.rows with
  | none =>
    refine ⟨e, _, ?_, hspares (.refl w) .empty (s'.calls.map (·.2))⟩
    simp [CommandLine.onFile, hopened, hrefused]
  | some rows =>
    rw [hopened] at hrows
    have hput : Spares f w (w.put f.place (.database rows)) :=
      .of_tables (Workspace.tables_put hrows)
    cases hready : ((w.put f.place (.database rows)).settle f).1 with
    | false =>
      refine ⟨e, _, ?_, hspares hput .empty (s'.calls.map (·.2))⟩
      simp [CommandLine.onFile, hopened, hready, hrefused]
    | true =>
      let settled := ((w.put f.place (.database rows)).settle f).2
      let b := if settled.AcceptsChanges f then Store.backend else Store.readOnlyBackend
      have hb : b.IsSteady := by
        unfold b
        split
        · exact Store.backend_isSteady
        · exact Store.readOnlyBackend_isSteady
      obtain ⟨e, s', hrun, hstate⟩ := h.onStore (t := t) b hb rows
      have hcalls := hspares hput rows (s'.calls.map (·.2))
      have hkept := hcalls f.place (DatabaseFile.journal_ne hplace).symm
        (DatabaseFile.log_ne hplace).symm
      refine ⟨e, _, ?_, hcalls.trans (.of_tables (Workspace.tables_put (hkept.trans hrows)))⟩
      simp only [b, settled] at hrun
      simp [CommandLine.onFile, hopened, hready, hrun, hstate]

theorem FailsFirst.onDatabase (h : FailsFirst run) (path : String) :
    ∃ e w', onDatabase w path t run = (.error e, w') ∧ SparesTables (fileOf? path w) w w' := by
  have hmade := Workspace.files_makeParent w path
  rw [CommandLine.onDatabase, fileOf?]
  cases hparent : w.makeParent path with
  | mk made w₁ =>
    rw [hparent] at hmade
    have hsame : ∀ p, w₁.tables p = w.tables p := Workspace.tables_of_files_eq hmade
    cases made with
    | error fault => exact ⟨_, _, rfl, fun p _ => hsame p⟩
    | ok u =>
      cases hopen : w₁.openDatabase? path with
      | none => exact ⟨_, w₁, by simp only [hopen]; rfl, fun p _ => hsame p⟩
      | some database =>
        cases database with
        | temporary =>
          obtain ⟨e, s', hrun, -⟩ := h Store.backend t (t.start .empty)
            (Graph.wellFormed_single ..)
          exact ⟨e, _, by simp only [hopen, hrun], fun p _ => hsame p⟩
        | file f =>
          obtain ⟨hplace, hrows⟩ := Workspace.openDatabase?_eq_file hopen
          obtain ⟨e, w', hrun, hspares⟩ := h.onFile (t := t) hplace hrows
          refine ⟨e, w', by simp only [hopen, hrun], fun p hp => ?_⟩
          obtain ⟨hjournal, hlog⟩ := hp f (by simp only [hopen])
          exact (hspares p hjournal hlog).trans (hsame p)

/-- A misdirected command fails, and no tables change. -/
theorem Command.Misdirects.fails {i : Invocation} (h : i.command.Misdirects) (w : Workspace) :
    ∃ e w', i.run w = (.error e, w') ∧ SparesTables (i.file? w) w w' := by
  rw [Invocation.run, Invocation.file?]
  cases hconfig : Config.load w i.configPath with
  | error e => exact ⟨_, _, rfl, fun _ _ => rfl⟩
  | ok config =>
    simp only [Invocation.execute]
    cases hcommand : i.command with
    | save table pk id arguments =>
      rw [hcommand] at h
      exact FailsFirst.onDatabase (save_failsFirst h) _
    | delete table pk id tables =>
      rw [hcommand] at h
      exact FailsFirst.onDatabase (delete_failsFirst h) _
    | init | fetch =>
      rw [hcommand] at h
      exact h.elim

end CommandLine

open RecordGraph.Action RecordGraph.CommandLine

/-- Nothing is written until every path of the list is resolved. Where one of them cannot be
resolved, because it is malformed or because a selection fails, a save or a delete fails with
only selections sent, which leave a steady backend as it is. A run of the command line on a
malformed argument or path ends with code 1, and every table has the rows that it had. What may be
cleared away are a journal and a log beside the database. -/
theorem Graph.Reachable.resolves_before_writing {σ : Type} (b : Backend σ) {s : Session σ}
    (hs : s.graph.Reachable) (n : NodeId) :
    (∀ values e s', (∃ before path v after t, values = before ++ (path, v) :: after ∧
        before.forM (assignAt b n) s = .ok ⟨⟩ t ∧ resolveColumn b n path t = .error e s') →
      saveAt b n values s = .error e s' ∧ s.SelectsOnly b s') ∧
    (∀ values, (∃ path v e, (path, v) ∈ values ∧ ColumnPath.parse path = .error e) →
      ∃ e s', saveAt b n values s = .error e s' ∧ s.SelectsOnly b s') ∧
    (∀ tables e s', (∃ before path after t, tables = before ++ path :: after ∧
        before.forM (joinAt b n) s = .ok ⟨⟩ t ∧ resolveTable b n path t = .error e s') →
      deleteAt b n tables s = .error e s' ∧ s.SelectsOnly b s') ∧
    (∀ tables, (∃ path ∈ tables, ∃ e, TableSpec.parsePath path = .error e) →
      ∃ e s', deleteAt b n tables s = .error e s' ∧ s.SelectsOnly b s') ∧
    (b.IsSteady → ∀ s', s.SelectsOnly b s' → s'.backend = s.backend) ∧
    ∀ quiet args w i, parse args = .ok (.invocation i) → i.command.Misdirects →
      let o := run quiet args w
      o.ending.code = 1 ∧
      (∀ p, (∀ f, i.file? w = some f → p ≠ f.journal ∧ p ≠ f.log) →
        o.workspace.tables p = w.tables p) ∧
      ∀ f, i.file? w = some f → o.workspace.tables f.place = w.tables f.place := by
  have hg := hs.wellFormed
  refine ⟨fun values e s' h => ?_, fun values h => ?_, fun tables e s' h => ?_,
    fun tables h => ?_, fun hb s' h => h.backend_eq hb, fun quiet args w i hparse hbad => ?_⟩
  · obtain ⟨before, path, v, after, t, hsplit, hbefore, hresolve⟩ := h
    exact saveAt_stops hg
      (forM_eq_error.2 ⟨before, (path, v), after, t, hsplit, hbefore, assignAt_eq_error.2 hresolve⟩)
  · obtain ⟨path, v, e, hmem, hpath⟩ := h
    exact saveAt_malformed hg hmem hpath
  · obtain ⟨before, path, after, t, hsplit, hbefore, hresolve⟩ := h
    exact deleteAt_stops hg
      (forM_eq_error.2 ⟨before, path, after, t, hsplit, hbefore, joinAt_eq_error.2 hresolve⟩)
  · obtain ⟨path, hmem, e, hpath⟩ := h
    exact deleteAt_malformed hg hmem hpath
  · obtain ⟨e, w', hrun, hspares⟩ := hbad.fails w
    have hfails : run quiet args w = ⟨"", .failed e, w'⟩ := by
      simp only [run, hparse, hrun]
    intro o
    have ho : o = ⟨"", .failed e, w'⟩ := hfails
    rw [ho]
    refine ⟨rfl, hspares, fun f hf => hspares f.place fun f' hf' => ?_⟩
    obtain rfl := Option.some.inj (hf.symm.trans hf')
    have hplace := file?_place hf
    exact ⟨(DatabaseFile.journal_ne hplace).symm, (DatabaseFile.log_ne hplace).symm⟩

/-- The title of a joined row is to be changed, but the path after it is none: the row of the
foreign key is selected, and that is all. On the command line the argument after it has no equals
sign. -/
theorem Graph.Reachable.resolves_before_writing_joined :
    let store : Store := ⟨[⟨"t0", some "id", ["t1_id"], [⟨1, [("t1_id", .integer 5)]⟩]⟩,
      ⟨"t1", some "id", ["title"], [⟨5, [("title", .text "old")]⟩]⟩], 0⟩
    let s := Session.start "t0" "id" (.integer 1) store
    let s' := (saveAt Store.backend Graph.root
      [("t1.title", .text "new"), ("t1[", .text "new")]).after s
    let w : Workspace := ⟨[], [(["a.db"], .database store)], []⟩
    let o := run false ["save", "-d", "a.db", "-t", "t0", "-i", "1", "t1.title=new", "title"] w
    s'.calls.length = 1 ∧ s'.backend = store ∧
      o.ending.code = 1 ∧ o.workspace.tables ["a.db"] = store.tables := by
  intro store s s' w o
  have hs : s.graph.Reachable := reachable_performAll Store.backend "t0" "id" (.integer 1) store []
  obtain ⟨-, hsave, -, -, hsteady, hrun⟩ :=
    Graph.Reachable.resolves_before_writing Store.backend hs Graph.root
  obtain ⟨e, hpath⟩ : ∃ e, ColumnPath.parse "t1[" = .error e := by
    have hnone : (ColumnPath.parse "t1[").toOption = none := by decide +kernel
    cases hparse : ColumnPath.parse "t1[" with
    | error e => exact ⟨e, rfl⟩
    | ok p => rw [hparse] at hnone; cases hnone
  obtain ⟨e', s₁, hfails, hselects⟩ := hsave [("t1.title", .text "new"), ("t1[", .text "new")]
    ⟨"t1[", .text "new", e, by simp, hpath⟩
  have hs' : s' = s₁ := by
    change Action.after _ s = s₁
    rw [after, hfails]
  let i : Invocation :=
    ⟨false, some "a.db", none, .save "t0" none (some "1") ["t1.title=new", "title"]⟩
  have hparse : parse ["save", "-d", "a.db", "-t", "t0", "-i", "1", "t1.title=new", "title"] =
    .ok (.invocation i) := by decide +kernel
  have hbad : i.command.Misdirects :=
    ⟨"title", by simp, .noEquals (splitAtEquals_eq_none.1 (by decide +kernel))⟩
  obtain ⟨f, hf, hplace⟩ : ∃ f, i.file? w = some f ∧ f.place = ["a.db"] :=
    Option.map_eq_some_iff.1 (by decide +kernel)
  obtain ⟨hcode, -, htables⟩ := hrun false _ w i hparse hbad
  have hkept := htables f hf
  rw [hplace] at hkept
  refine ⟨by decide +kernel, ?_, hcode, hkept⟩
  rw [hs']
  exact hsteady Store.backend_isSteady s₁ hselects

end RecordGraph
