import RecordGraph.Proofs.PathGrammar

/-!
# Reading what was shown

The canonical text of a path is a sentence of the grammar, with a blank on either
side of an equals sign and no others, so reading it gives the path again.
-/
namespace RecordGraph

namespace TableSpec

/-- The canonical text of tables, with dots between them. -/
def displayAll (tables : List TableSpec) : String := ".".intercalate (tables.map display)

theorem toChars_before {t : TableSpec} {p : ColumnPath} :
    (t.before p).toChars = t.toChars ++ '.' :: p.toChars := by
  obtain ⟨table, _ | ⟨_ | child, fk⟩⟩ := t <;> simp [before, toChars, ColumnPath.toChars]

theorem toList_displayAll (tables : List TableSpec) :
    (displayAll tables).toList = ['.'].intercalate (tables.map toChars) := by
  rw [displayAll, String.toList_intercalate, List.map_map]
  congr 2
  funext t
  exact String.toList_ofList

end TableSpec

namespace Path

/-! ## Blanks at the front -/

section
variable {name : String} {token s : List Char}

theorem spaced_self (token : List Char) : Spaced token token := ⟨[], by simp [IsBlanks], rfl⟩

theorem nameToken_self (h : IsName name) : NameToken name name.toList := ⟨h, spaced_self _⟩

theorem Spaced.blank (h : Spaced token s) : Spaced token (' ' :: s) := by
  obtain ⟨blanks, hblanks, rfl⟩ := h
  refine ⟨' ' :: blanks, ?_, rfl⟩
  intro c hc
  rcases List.mem_cons.1 hc with rfl | hc
  · decide
  · exact hblanks c hc

theorem NameToken.blank (h : NameToken name s) : NameToken name (' ' :: s) :=
  ⟨h.isName, h.spaced.blank⟩

theorem DerivesTable.blank {t : TableSpec} (h : DerivesTable t s) : DerivesTable t (' ' :: s) := by
  cases h with
  | plain name => exact .plain name.blank
  | joined name opening foreignKey closing =>
    exact .joined name.blank opening foreignKey closing
  | joinedBy name opening child equals foreignKey closing =>
    exact .joinedBy name.blank opening child equals foreignKey closing

theorem DerivesPath.blank {p : ColumnPath} (h : DerivesPath p s) : DerivesPath p (' ' :: s) := by
  cases h with
  | column name => exact .column name.blank
  | before table dot path => exact .before table.blank dot path

end

/-! ## The canonical text is derived -/

theorem derivesTable_toChars {t : TableSpec} (ht : t.Named)
    (hfk : ∀ j ∈ t.join, DerivesPath j.foreignKey j.foreignKey.toChars) :
    DerivesTable t t.toChars := by
  obtain ⟨table, join⟩ := t
  obtain ⟨htable, hjoin⟩ := ht
  cases join with
  | none => exact .plain (nameToken_self htable)
  | some j =>
    obtain ⟨child, fk⟩ := j
    have hpath := hfk _ rfl
    cases child with
    | none => exact .joined (nameToken_self htable) (spaced_self _) hpath (spaced_self _)
    | some column =>
      have hcolumn := (hjoin _ rfl).1 column rfl
      exact .joinedBy (nameToken_self htable) (spaced_self _) (nameToken_self hcolumn)
        (spaced_self _).blank hpath.blank (spaced_self _)

theorem derivesPath_toChars {p : ColumnPath} (hp : p.Named) : DerivesPath p p.toChars := by
  induction p with
  | column name => exact .column (nameToken_self hp)
  | through table rest ih =>
    have ht : DerivesTable ⟨table, none⟩ _ := derivesTable_toChars ⟨hp.1, by simp⟩ (by simp)
    exact .before ht (spaced_self _) (ih hp.2)
  | joined table child fk rest ihfk ih =>
    obtain ⟨htable, hchild, hfk, hrest⟩ := hp
    have ht : DerivesTable ⟨table, some ⟨child, fk⟩⟩ _ :=
      derivesTable_toChars ⟨htable, by simpa using ⟨hchild, hfk⟩⟩ (by simpa using ihfk hfk)
    have hpath := DerivesPath.before ht (spaced_self ['.']) (ih hrest)
    have htext := TableSpec.toChars_before (t := ⟨table, some ⟨child, fk⟩⟩) (p := rest)
    rwa [List.singleton_append, ← htext] at hpath

theorem derivesTables_toChars {tables : List TableSpec} (hne : tables ≠ [])
    (h : ∀ t ∈ tables, t.Named) :
    DerivesTables tables (['.'].intercalate (tables.map TableSpec.toChars)) := by
  induction tables with
  | nil => exact absurd rfl hne
  | cons t tables ih =>
    have ht : DerivesTable t t.toChars :=
      derivesTable_toChars (h t (by simp)) fun j hj =>
        derivesPath_toChars ((h t (by simp)).2 j hj).2
    cases tables with
    | nil => simpa [List.intercalate_singleton] using .last ht
    | cons u us =>
      have hmore := ih (by simp) fun v hv => h v (by simp [hv])
      simpa [List.intercalate_cons_cons] using .before ht (spaced_self ['.']) hmore

/-! ## Reading it -/

theorem parse_display_of_named {p : ColumnPath} (hp : p.Named) (hdepth : p.nesting ≤ maxNesting) :
    ColumnPath.parse p.display = .ok p := by
  rw [ColumnPath.parse_eq_ok]
  refine ⟨hp, ?_, hdepth⟩
  have hsymbols := (derivesPath_toChars hp).yields.2 [] (by simp [Ends])
  simpa [ColumnPath.display] using hsymbols

theorem parsePath_displayAll_of_named {tables : List TableSpec} (hne : tables ≠ [])
    (h : ∀ t ∈ tables, t.Named ∧ t.nesting ≤ maxNesting) :
    TableSpec.parsePath (TableSpec.displayAll tables) = .ok tables := by
  rw [TableSpec.parsePath_eq_ok]
  refine ⟨hne, h, ?_⟩
  have hsymbols :=
    (derivesTables_toChars hne fun t ht => (h t ht).1).yields.2 [] (by simp [Ends])
  simpa [TableSpec.toList_displayAll] using hsymbols

/-- Showing a path and reading it gives the path; so it does for tables, and what was read once
is told apart by what it shows. -/
theorem parse_display :
    (∀ p : ColumnPath, p.Named → p.nesting ≤ 32 → ColumnPath.parse p.display = .ok p) ∧
    (∀ tables : List TableSpec, tables ≠ [] → (∀ t ∈ tables, t.Named ∧ t.nesting ≤ 32) →
      TableSpec.parsePath (TableSpec.displayAll tables) = .ok tables) ∧
    (∀ text p, ColumnPath.parse text = .ok p → ColumnPath.parse p.display = .ok p) ∧
    (∀ text tables, TableSpec.parsePath text = .ok tables →
      TableSpec.parsePath (TableSpec.displayAll tables) = .ok tables) ∧
    (∀ text text' p q, ColumnPath.parse text = .ok p → ColumnPath.parse text' = .ok q →
      p.display = q.display → p = q) ∧
    (∀ text text' ts us, TableSpec.parsePath text = .ok ts → TableSpec.parsePath text' = .ok us →
      TableSpec.displayAll ts = TableSpec.displayAll us → ts = us) := by
  have hpath : ∀ text p, ColumnPath.parse text = .ok p → ColumnPath.parse p.display = .ok p := by
    intro text p h
    obtain ⟨hp, -, hdepth⟩ := ColumnPath.parse_eq_ok.1 h
    exact parse_display_of_named hp hdepth
  have htables : ∀ text ts, TableSpec.parsePath text = .ok ts →
      TableSpec.parsePath (TableSpec.displayAll ts) = .ok ts := by
    intro text ts h
    obtain ⟨hne, hall, -⟩ := TableSpec.parsePath_eq_ok.1 h
    exact parsePath_displayAll_of_named hne hall
  refine ⟨fun p => parse_display_of_named, fun ts => parsePath_displayAll_of_named, hpath, htables,
    ?_, ?_⟩
  · intro text text' p q hp hq heq
    have hread := hpath text p hp
    rw [heq, hpath text' q hq] at hread
    cases hread
    rfl
  · intro text text' ts us hts hus heq
    have hread := htables text ts hts
    rw [heq, htables text' us hus] at hread
    cases hread
    rfl

/-- A join inside a join, one with a joined column and one without. -/
theorem parse_display_joined :
    ColumnPath.parse (ColumnPath.display (.joined "t1" (some "key")
        (.joined "t2" none (.column "a") (.column "b")) (.through "t3" (.column "title")))) =
      .ok (.joined "t1" (some "key") (.joined "t2" none (.column "a") (.column "b"))
        (.through "t3" (.column "title"))) ∧
    TableSpec.parsePath (TableSpec.displayAll
        [⟨"t1", some ⟨some "key", .through "t2" (.column "b")⟩⟩, ⟨"t3", none⟩]) =
      .ok [⟨"t1", some ⟨some "key", .through "t2" (.column "b")⟩⟩, ⟨"t3", none⟩] ∧
    ColumnPath.parse (ColumnPath.display (.joined "t1" none (.column "a") (.column "b"))) =
      .ok (.joined "t1" none (.column "a") (.column "b")) := by
  have htext : ColumnPath.parse " t1[ a ] .b" =
      .ok (.joined "t1" none (.column "a") (.column "b")) := by decide +kernel
  exact ⟨parse_display.1 _ (by decide +kernel) (by decide),
    parse_display.2.1 _ (by decide) (by decide +kernel), parse_display.2.2.1 _ _ htext⟩

end Path
end RecordGraph
