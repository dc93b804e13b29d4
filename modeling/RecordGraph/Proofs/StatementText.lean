import RecordGraph.Proofs.SqlTokens
import RecordGraph.Sql.Reader

/-!
# Texts of statements

No name and no value can change what a statement is. In the standard dialect its
text is cut into the tokens that its outline says, and these are read as the
outline again: the kind of the statement, its names, and the literals of its values.
-/
namespace RecordGraph

namespace Sql

/-! ## Tokens of an outline -/

/-- Tokens with commas between them. -/
def listed (items : List (List Token)) : List Token := [.mark ','].intercalate items

def equationTokens (equation : String × List Char) : List Token :=
  [.name equation.1, .mark '=', .literal equation.2]

def conditionTokens (key : String × List Char) : List Token := .word "where" :: equationTokens key

end Sql

open Sql

/-- The tokens of an outline. -/
def Outline.tokens : Outline → List Token
  | select table key columns =>
    .word "select" :: (listed (columns.map fun c => [.name c]) ++
      .word "from" :: .name table :: conditionTokens key)
  | insert table [] =>
    [.word "insert", .word "into", .name table, .word "default", .word "values"]
  | insert table assignments =>
    .word "insert" :: .word "into" :: .name table :: .mark '(' ::
      (listed ((assignments.map Prod.fst).map fun c => [.name c]) ++
        .mark ')' :: .word "values" :: .mark '(' ::
          (listed ((assignments.map Prod.snd).map fun l => [.literal l]) ++ [.mark ')']))
  | update table key assignments =>
    .word "update" :: .name table :: .word "set" ::
      (listed (assignments.map equationTokens) ++ conditionTokens key)
  | delete table key => .word "delete" :: .word "from" :: .name table :: conditionTokens key

/-- A selection and an update name at least one column. -/
def Outline.HasColumns : Outline → Prop
  | select _ _ columns => columns ≠ []
  | update _ _ assignments => assignments ≠ []
  | insert .. | delete .. => True

namespace Sql

section
variable {α : Type*} {ts : List Token} {l : List α} {columns : List String}
  {literals : List (List Char)} {equations : List (String × List Char)}

theorem listed_cons_cons (a b : List Token) (items : List (List Token)) :
    listed (a :: b :: items) = a ++ .mark ',' :: listed (b :: items) := by
  simp [listed, List.intercalate_cons_cons]

theorem listed_singleton (a : List Token) : listed [a] = a := List.intercalate_singleton

/-! ## Reading the tokens -/

/-- A list is read to its end by a reader that goes on after each comma. -/
theorem read_listed {read : List Token → Option (List α × List Token)} {item : α → List Token}
    (hmore : ∀ a ts, read (item a ++ .mark ',' :: ts) =
      (read ts).map fun (l, ts) => (a :: l, ts))
    (hlast : ∀ a, read (item a ++ ts) = some ([a], ts)) (hl : l ≠ []) :
    read (listed (l.map item) ++ ts) = some (l, ts) := by
  induction l with
  | nil => exact absurd rfl hl
  | cons a l ih =>
    cases l with
    | nil =>
      rw [List.map_singleton, listed_singleton]
      exact hlast a
    | cons b l =>
      simp only [List.map_cons] at ih ⊢
      rw [listed_cons_cons, List.append_assoc, List.cons_append, hmore, ih (List.cons_ne_nil _ _)]
      rfl

variable (hts : ts.head? ≠ some (.mark ','))

include hts

theorem readNames_listed (hl : columns ≠ []) :
    readNames (listed (columns.map fun c => [.name c]) ++ ts) = some (columns, ts) := by
  refine read_listed (fun _ _ => rfl) (fun c => ?_) hl
  rw [List.singleton_append, readNames]
  rintro more rfl
  exact hts rfl

theorem readLiterals_listed (hl : literals ≠ []) :
    readLiterals (listed (literals.map fun l => [.literal l]) ++ ts) = some (literals, ts) := by
  refine read_listed (fun _ _ => rfl) (fun l => ?_) hl
  rw [List.singleton_append, readLiterals]
  rintro more rfl
  exact hts rfl

theorem readEquations_listed (hl : equations ≠ []) :
    readEquations (listed (equations.map equationTokens) ++ ts) = some (equations, ts) := by
  refine read_listed (fun _ _ => rfl) (fun c => ?_) hl
  rw [equationTokens, List.cons_append, List.cons_append, List.singleton_append, readEquations]
  rintro more rfl
  exact hts rfl

end

/-- An outline is read from its tokens. -/
theorem readOutline_tokens {o : Outline} (ho : o.HasColumns) :
    readOutline o.tokens = some (o, []) := by
  cases o with
  | select table key columns =>
    rw [Outline.tokens, readOutline, readNames_listed (by simp) ho]
    rfl
  | insert table assignments =>
    cases assignments with
    | nil => rfl
    | cons a assignments =>
      have hnames : (a :: assignments).map Prod.fst ≠ [] := List.cons_ne_nil _ _
      have hliterals : (a :: assignments).map Prod.snd ≠ [] := List.cons_ne_nil _ _
      have hzip : ((a :: assignments).map Prod.fst).zip ((a :: assignments).map Prod.snd) =
          a :: assignments := (List.zip_of_prod rfl rfl).symm
      have hlength : ((a :: assignments).map Prod.fst).length =
          ((a :: assignments).map Prod.snd).length := by rw [List.length_map, List.length_map]
      have hread : readLiterals (listed (((a :: assignments).map Prod.snd).map
          fun l => [.literal l]) ++ [.mark ')']) =
            some ((a :: assignments).map Prod.snd, [.mark ')']) :=
        readLiterals_listed (by simp) hliterals
      rw [Outline.tokens, readOutline, readNames_listed (by simp) hnames]
      simp only [Option.bind_eq_bind, Option.bind_some, hread, if_pos hlength, hzip,
        Option.pure_def]
      intro h
      cases h
  | update table key assignments =>
    rw [Outline.tokens, readOutline, readEquations_listed (by simp [conditionTokens]) ho]
    rfl
  | delete table key => rfl

/-! ## Writing the tokens -/

/-- A word of a statement. -/
def IsKeyword (w : String) : Prop :=
  w ≠ "NULL" ∧ w.toList.all isWordChar = true ∧
    w.toList.head?.any (fun c => !isNumberChar c && c != 'X') = true

instance : DecidablePred IsKeyword := fun _ => inferInstanceAs (Decidable (_ ∧ _))

theorem IsKeyword.writes {w : String} (h : IsKeyword w) : Writes w.toList [.word w] := by
  obtain ⟨hnull, hword, hfirst⟩ := h
  obtain ⟨c, s, hw⟩ : ∃ c s, w.toList = c :: s := by
    refine List.exists_cons_of_ne_nil fun hnil => ?_
    rw [hnil] at hfirst
    cases hfirst
  rw [hw] at hword hfirst
  have hc : isNumberChar c = false ∧ c ≠ 'X' := by simpa using hfirst
  have hspells := spells_word (List.all_eq_true.1 hword) hc
  have hnot : c :: s ≠ ['N', 'U', 'L', 'L'] := by
    intro heq
    refine hnull (String.toList_injective (hw.trans (heq.trans ?_)))
    decide
  rw [if_neg hnot, ← hw, String.ofList_toList] at hspells
  exact hspells.writes

theorem writes_name (name : String) : Writes (quoteIdentifier name).toList [.name name] := by
  rw [quoteIdentifier, String.toList_ofList]
  exact (spells_name name).writes

theorem writes_literal (v : Value) : Writes (quoteLiteral v).toList [.literal (literal v)] := by
  rw [quoteLiteral, String.toList_ofList]
  exact (spells_literal v).writes

theorem writes_equation (column : String) (v : Value) :
    Writes (Dialect.standard.equation column v).toList (equationTokens (column, literal v)) := by
  have h := (writes_name column).equals (writes_literal v)
  have htext : (Dialect.standard.equation column v).toList =
      (quoteIdentifier column).toList ++ [' ', '=', ' '] ++ (quoteLiteral v).toList := by
    simp [Dialect.equation, Dialect.standard]
  rw [htext]
  exact h

theorem writes_condition (key : KeyMatch) :
    Writes ("where".toList ++ ' ' :: (Dialect.standard.equation key.column key.value).toList)
      (conditionTokens (key.column, literal key.value)) :=
  (IsKeyword.writes (by decide)).blank (writes_equation key.column key.value)

end Sql

namespace Statement

/-- The kind of a statement, its names, and the literals of its values. -/
def outline : Statement → Outline
  | select table key columns => .select table (key.column, literal key.value) columns
  | insert table assignments => .insert table (assignments.map fun a => (a.1, literal a.2))
  | update table key assignments =>
    .update table (key.column, literal key.value) (assignments.map fun a => (a.1, literal a.2))
  | delete table key => .delete table (key.column, literal key.value)

section
variable (table : String) (key : KeyMatch)

theorem writes_select {columns : List String} (hl : columns ≠ []) :
    Writes ((select table key columns).render .standard).toList
      (select table key columns).outline.tokens := by
  have htext : ((select table key columns).render .standard).toList =
      "select".toList ++ ' ' :: ([',', ' '].intercalate
          (columns.map fun c => (quoteIdentifier c).toList) ++
        ' ' :: ("from".toList ++ ' ' :: ((quoteIdentifier table).toList ++
          ' ' :: ("where".toList ++
            ' ' :: (Dialect.standard.equation key.column key.value).toList)))) := by
    simp [render, Dialect.condition, Dialect.standard, String.toList_intercalate,
      Function.comp_def]
  rw [htext]
  exact (IsKeyword.writes (by decide)).blank <| (Writes.list writes_name hl).blank <|
    (IsKeyword.writes (by decide)).blank <| (writes_name table).blank (writes_condition key)

theorem writes_insert (assignments : List Assignment) :
    Writes ((insert table assignments).render .standard).toList
      (insert table assignments).outline.tokens := by
  cases assignments with
  | nil =>
    have htext : ((insert table []).render .standard).toList =
        "insert".toList ++ ' ' :: ("into".toList ++ ' ' :: ((quoteIdentifier table).toList ++
          ' ' :: ("default".toList ++ ' ' :: "values".toList))) := by
      simp [render, Dialect.standard]
    rw [htext]
    exact (IsKeyword.writes (by decide)).blank <| (IsKeyword.writes (by decide)).blank <|
      (writes_name table).blank <|
        (IsKeyword.writes (by decide)).blank (IsKeyword.writes (by decide))
  | cons a assignments =>
    have htext : ((insert table (a :: assignments)).render .standard).toList =
        "insert".toList ++ ' ' :: ("into".toList ++ ' ' ::
          (((quoteIdentifier table).toList ++ '(' :: ([',', ' '].intercalate
              ((a :: assignments).map fun a => (quoteIdentifier a.1).toList) ++ [')'])) ++
            ' ' :: ("values".toList ++ '(' :: ([',', ' '].intercalate
              ((a :: assignments).map fun a => (quoteLiteral a.2).toList) ++ [')'])))) := by
      simp [render, Dialect.standard, String.toList_intercalate, Function.comp_def]
    have hnames := Writes.list (fun b : Assignment => writes_name b.1)
      (List.cons_ne_nil a assignments)
    have hliterals := Writes.list (fun b : Assignment => writes_literal b.2)
      (List.cons_ne_nil a assignments)
    have hwrites := (IsKeyword.writes (by decide : IsKeyword "insert")).blank <|
      (IsKeyword.writes (by decide : IsKeyword "into")).blank <|
      ((writes_name table).brackets hnames).blank
        ((IsKeyword.writes (by decide : IsKeyword "values")).brackets hliterals)
    rw [htext]
    simpa [outline, Outline.tokens, listed, Function.comp_def] using hwrites

theorem writes_update {assignments : List Assignment} (hl : assignments ≠ []) :
    Writes ((update table key assignments).render .standard).toList
      (update table key assignments).outline.tokens := by
  have htext : ((update table key assignments).render .standard).toList =
      "update".toList ++ ' ' :: ((quoteIdentifier table).toList ++ ' ' :: ("set".toList ++
        ' ' :: ([',', ' '].intercalate
          (assignments.map fun a => (Dialect.standard.equation a.1 a.2).toList) ++
          ' ' :: ("where".toList ++
            ' ' :: (Dialect.standard.equation key.column key.value).toList)))) := by
    simp [render, Dialect.condition, Dialect.equation, Dialect.standard,
      String.toList_intercalate, Function.comp_def]
  have hequations := Writes.list (fun a : Assignment => writes_equation a.1 a.2) hl
  have hwrites := (IsKeyword.writes (by decide : IsKeyword "update")).blank <|
    (writes_name table).blank <| (IsKeyword.writes (by decide : IsKeyword "set")).blank <|
      hequations.blank (writes_condition key)
  rw [htext]
  simpa [outline, Outline.tokens, listed, Function.comp_def] using hwrites

theorem writes_delete : Writes ((delete table key).render .standard).toList
    (delete table key).outline.tokens := by
  have htext : ((delete table key).render .standard).toList =
      "delete".toList ++ ' ' :: ("from".toList ++ ' ' :: ((quoteIdentifier table).toList ++
        ' ' :: ("where".toList ++
          ' ' :: (Dialect.standard.equation key.column key.value).toList))) := by
    simp [render, Dialect.condition, Dialect.equation, Dialect.standard]
  rw [htext]
  exact (IsKeyword.writes (by decide)).blank <| (IsKeyword.writes (by decide)).blank <|
    (writes_name table).blank (writes_condition key)

end

/-- The text of a statement is cut into the tokens of its outline. -/
theorem tokens?_render {s : Statement} (hs : s.outline.HasColumns) :
    tokens? (s.render .standard) = some s.outline.tokens := by
  refine Writes.tokens?_eq ?_
  cases s with
  | select table key columns => exact writes_select table key hs
  | insert table assignments => exact writes_insert table assignments
  | update table key assignments => exact writes_update table key fun h => hs (by rw [h]; rfl)
  | delete table key => exact writes_delete table key

/-- From the text of a statement in the standard dialect its outline is read, whatever its names
and values are. So no two statements have the same text, unless they have the same outline. -/
theorem read_render {s : Statement} (hs : s.outline.HasColumns) :
    Outline.read? (s.render .standard) = some s.outline ∧
    ∀ t : Statement, t.outline.HasColumns → t.render .standard = s.render .standard →
      t.outline = s.outline := by
  have hread {s : Statement} (hs : s.outline.HasColumns) :
      Outline.read? (s.render .standard) = some s.outline := by
    rw [Outline.read?, tokens?_render hs, Option.bind_eq_bind, Option.bind_some,
      readOutline_tokens hs]
    rfl
  refine ⟨hread hs, fun t ht htext => ?_⟩
  have hsame := hread ht
  rw [htext, hread hs] at hsame
  exact (Option.some.inj hsame).symm

/-- Names and a value that look like parts of a statement. -/
theorem read_render_quoted :
    let s : Statement := .update "t\" set \"x" ⟨"", .text "' or ''='"⟩
      [("a\" = 1, \"b", .text "1, \"c\" = 2"), ("where", .null)]
    Outline.read? (s.render .standard) = some (.update "t\" set \"x" ("", "''' or ''''='''".toList)
      [("a\" = 1, \"b", "'1, \"c\" = 2'".toList), ("where", "NULL".toList)]) := by
  intro s
  have hs : s.outline.HasColumns := List.cons_ne_nil _ _
  have houtline : s.outline = .update "t\" set \"x" ("", "''' or ''''='''".toList)
      [("a\" = 1, \"b", "'1, \"c\" = 2'".toList), ("where", "NULL".toList)] := by decide
  rw [(read_render hs).1, houtline]

end Statement
end RecordGraph
