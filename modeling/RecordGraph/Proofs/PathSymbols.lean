import Mathlib.Data.List.TakeWhile
import RecordGraph.Path.Basic
import RecordGraph.Path.Token

/-!
# Paths as symbols

A text is read through its symbols only: names and marks, without the blanks
between them. A path has symbols too, and no two paths have the same ones.
-/
namespace RecordGraph

namespace Path

/-- A run of characters that are neither blank nor a mark, at least one. -/
def IsName (name : String) : Prop := name.toList ≠ [] ∧ ∀ c ∈ name.toList, isNameChar c = true

-- by a test of the characters of the name, not of all there are
instance : DecidablePred IsName := fun name =>
  decidable_of_iff (name.toList ≠ [] ∧ name.toList.all isNameChar = true) (by simp [IsName])

/-- The symbol of a name; a text without characters is no name. -/
def Symbol.ofName (name : String) : Symbol := .name (name.toList.headD '_') name.toList.tail

/-- The characters of a symbol. -/
def Symbol.text : Symbol → List Char
  | .name c more => c :: more
  | .dot => ['.']
  | .opening => ['[']
  | .closing => [']']
  | .equals => ['=']

/-- The symbols of a text. -/
def symbols (s : List Char) : List Symbol := (tokens 0 s).map Token.symbol

theorem IsName.exists {name : String} (h : IsName name) :
    ∃ c more, name = String.ofList (c :: more) ∧ Symbol.ofName name = .name c more := by
  cases hs : name.toList with
  | nil => exact absurd hs h.1
  | cons c more => exact ⟨c, more, by rw [← hs, String.ofList_toList], by simp [Symbol.ofName, hs]⟩

theorem ofName_ofList (c : Char) (more : List Char) :
    Symbol.ofName (String.ofList (c :: more)) = .name c more := by simp [Symbol.ofName]

theorem IsName.text_ofName {name : String} (h : IsName name) :
    (Symbol.ofName name).text = name.toList := by
  obtain ⟨c, more, rfl, hname⟩ := h.exists
  rw [hname, String.toList_ofList, Symbol.text]

theorem IsName.ofName_inj {name name' : String} (h : IsName name) (h' : IsName name')
    (heq : Symbol.ofName name = .ofName name') : name = name' := by
  apply String.toList_injective
  rw [← h.text_ofName, ← h'.text_ofName, heq]

/-! ## Symbols of a text -/

section
variable {c : Char} {s r : List Char}

/-- Symbols do not know where they stand. -/
theorem map_symbol_tokens (position : ℕ) (s : List Char) :
    (tokens position s).map Token.symbol = symbols s := by
  suffices h : ∀ position', (tokens position s).map Token.symbol =
      (tokens position' s).map Token.symbol from h 0
  induction position, s using tokens.induct with
  | case1 position => intro position'; simp [tokens]
  | case2 position c s hblank ih =>
    intro position'
    simp only [tokens, if_pos hblank]
    exact ih (position' + 1)
  | case3 position c s hblank hmark ih =>
    intro position'
    simp only [tokens, if_neg hblank, if_pos hmark, List.map_cons, ih (position' + 1)]
  | case4 position c s hblank hmark ih =>
    intro position'
    simp only [tokens, if_neg hblank, if_neg hmark, List.map_cons,
      ih (position' + 1 + (s.takeWhile isNameChar).length)]

@[simp] theorem symbols_nil : symbols [] = [] := by simp [symbols, tokens]

theorem not_isBlank_of_isMark (h : isMark c = true) : Text.isBlank c = false := by
  simp only [isMark, Bool.or_eq_true, beq_iff_eq] at h
  rcases h with ((rfl | rfl) | rfl) | rfl <;> decide

theorem symbols_blank (h : Text.isBlank c = true) : symbols (c :: s) = symbols s := by
  rw [symbols, tokens, if_pos h, map_symbol_tokens]

theorem symbols_mark (h : isMark c = true) : symbols (c :: s) = .ofMark c :: symbols s := by
  rw [symbols, tokens, if_neg (by simp [not_isBlank_of_isMark h]), if_pos h, List.map_cons,
    map_symbol_tokens]

theorem symbols_name (h : isNameChar c = true) :
    symbols (c :: s) = .name c (s.takeWhile isNameChar) :: symbols (s.dropWhile isNameChar) := by
  simp only [isNameChar, Bool.and_eq_true, Bool.not_eq_true'] at h
  rw [symbols, tokens, if_neg (by simp [h.1]), if_neg (by simp [h.2]), List.map_cons,
    map_symbol_tokens]

/-- A character is blank, a mark or part of a name. -/
theorem blank_or_mark_or_name (c : Char) :
    Text.isBlank c = true ∨ isMark c = true ∨ isNameChar c = true := by
  unfold isNameChar
  cases Text.isBlank c <;> cases isMark c <;> simp

theorem text_ofMark (h : isMark c = true) : (Symbol.ofMark c).text = [c] := by
  simp only [isMark, Bool.or_eq_true, beq_iff_eq] at h
  rcases h with ((rfl | rfl) | rfl) | rfl <;> rfl

end

/-! ## Blanks and names in a text -/

/-- Only blanks. -/
def IsBlanks (s : List Char) : Prop := ∀ c ∈ s, Text.isBlank c = true

/-- A token with blanks before it. -/
def Spaced (token s : List Char) : Prop := ∃ blanks, IsBlanks blanks ∧ s = blanks ++ token

/-- No name goes on with what follows. -/
def Ends (r : List Char) : Prop := ∀ c ∈ r.head?, isNameChar c = false

section
variable {c : Char} {s r : List Char} {name : String}

theorem isNameChar_of_isBlank (h : Text.isBlank c = true) : isNameChar c = false := by
  simp [isNameChar, h]

theorem isNameChar_of_isMark (h : isMark c = true) : isNameChar c = false := by
  simp [isNameChar, h]

theorem IsBlanks.ends (h : IsBlanks s) (hr : Ends r) : Ends (s ++ r) := by
  cases s with
  | nil => exact hr
  | cons c s =>
    intro d hd
    obtain rfl : c = d := by simpa using hd
    exact isNameChar_of_isBlank (h c (by simp))

theorem Spaced.ends_mark (h : Spaced [c] s) (hc : isMark c = true) : Ends (s ++ r) := by
  obtain ⟨blanks, hblanks, rfl⟩ := h
  rw [List.append_assoc]
  refine hblanks.ends fun d hd => ?_
  obtain rfl : c = d := by simpa using hd
  exact isNameChar_of_isMark hc

theorem IsBlanks.symbols_append (h : IsBlanks s) : symbols (s ++ r) = symbols r := by
  induction s with
  | nil => rfl
  | cons c s ih =>
    rw [List.cons_append, symbols_blank (h c (by simp)), ih fun d hd => h d (by simp [hd])]

theorem Spaced.symbols_mark (h : Spaced [c] s) (hc : isMark c = true) :
    symbols (s ++ r) = .ofMark c :: symbols r := by
  obtain ⟨blanks, hblanks, rfl⟩ := h
  rw [List.append_assoc, hblanks.symbols_append, List.singleton_append, Path.symbols_mark hc]

theorem Spaced.symbols_name (h : Spaced name.toList s) (hname : IsName name) (hr : Ends r) :
    symbols (s ++ r) = .ofName name :: symbols r := by
  obtain ⟨blanks, hblanks, rfl⟩ := h
  obtain ⟨c, more, rfl, hsymbol⟩ := hname.exists
  obtain ⟨-, hchars⟩ := hname
  rw [String.toList_ofList] at hchars ⊢
  have hmore : ∀ d ∈ more, isNameChar d = true := fun d hd => hchars d (by simp [hd])
  have htake : (more ++ r).takeWhile isNameChar = more := by
    rw [List.takeWhile_append_of_pos hmore]
    cases r with
    | nil => simp
    | cons d r => simp [hr d (by simp)]
  have hdrop : (more ++ r).dropWhile isNameChar = r := by
    rw [List.dropWhile_append_of_pos hmore]
    cases r with
    | nil => simp
    | cons d r => simp [hr d (by simp)]
  rw [List.append_assoc, hblanks.symbols_append, List.cons_append,
    Path.symbols_name (hchars c (by simp)), htake, hdrop, hsymbol]

theorem symbols_eq_nil : symbols s = [] ↔ IsBlanks s := by
  induction s with
  | nil => simp [IsBlanks]
  | cons c s ih =>
    rcases blank_or_mark_or_name c with hc | hc | hc
    · rw [symbols_blank hc, ih]
      simp [IsBlanks, hc]
    · rw [Path.symbols_mark hc]
      simp [IsBlanks, not_isBlank_of_isMark hc]
    · rw [Path.symbols_name hc]
      have hblank : Text.isBlank c = false := by
        by_contra h
        rw [isNameChar_of_isBlank (by simpa using h)] at hc
        cases hc
      simp [IsBlanks, hblank]

/-- The first symbol of a text stands at its front, after blanks. -/
theorem symbols_eq_cons {x : Symbol} {xs : List Symbol} (h : symbols s = x :: xs) :
    ∃ s₁ s₂, Spaced x.text s₁ ∧ s = s₁ ++ s₂ ∧ symbols s₂ = xs ∧
      ((∀ c more, x ≠ .name c more) ∨ ∀ c ∈ x.text, isNameChar c = true) := by
  induction s with
  | nil => simp at h
  | cons c s ih =>
    rcases blank_or_mark_or_name c with hc | hc | hc
    · rw [symbols_blank hc] at h
      obtain ⟨s₁, s₂, ⟨blanks, hblanks, rfl⟩, rfl, hxs, hx⟩ := ih h
      refine ⟨c :: blanks ++ x.text, s₂, ⟨c :: blanks, ?_, rfl⟩, by simp, hxs, hx⟩
      intro d hd
      rcases List.mem_cons.1 hd with rfl | hd
      · exact hc
      · exact hblanks d hd
    · rw [Path.symbols_mark hc] at h
      obtain ⟨rfl, rfl⟩ := List.cons.inj h
      refine ⟨[c], s, ⟨[], by simp [IsBlanks], by rw [text_ofMark hc, List.nil_append]⟩, rfl, rfl,
        .inl ?_⟩
      simp only [isMark, Bool.or_eq_true, beq_iff_eq] at hc
      rcases hc with ((rfl | rfl) | rfl) | rfl <;> simp [Symbol.ofMark]
    · rw [Path.symbols_name hc] at h
      obtain ⟨rfl, rfl⟩ := List.cons.inj h
      refine ⟨c :: s.takeWhile isNameChar, s.dropWhile isNameChar, ⟨[], by simp [IsBlanks], rfl⟩,
        ?_, rfl, .inr ?_⟩
      · rw [List.cons_append, List.takeWhile_append_dropWhile]
      · intro d hd
        rcases List.mem_cons.1 hd with rfl | hd
        · exact hc
        · exact List.mem_takeWhile_imp hd

/-- All names among the symbols are names. -/
def WellNamed (xs : List Symbol) : Prop :=
  ∀ c more, .name c more ∈ xs → IsName (String.ofList (c :: more))

theorem wellNamed_symbols (s : List Char) : WellNamed (symbols s) := by
  induction hxs : symbols s generalizing s with
  | nil => simp [WellNamed]
  | cons x xs ih =>
    obtain ⟨s₁, s₂, -, -, hs₂, hx⟩ := symbols_eq_cons hxs
    intro c more hmem
    rcases List.mem_cons.1 hmem with rfl | hmem
    · refine ⟨by simp, ?_⟩
      rw [String.toList_ofList]
      exact hx.resolve_left fun h => h c more rfl
    · exact ih s₂ hs₂ c more hmem

end

/-- The symbols of a child column and its equals sign, if there is one. -/
def childSymbols : Option String → List Symbol
  | none => []
  | some child => [.ofName child, .equals]

end Path

/-! ## Symbols of a path -/

namespace ColumnPath

/-- All names of a path are names. -/
def Named : ColumnPath → Prop
  | column name => Path.IsName name
  | through table rest => Path.IsName table ∧ rest.Named
  | joined table child fk rest =>
    Path.IsName table ∧ (∀ name ∈ child, Path.IsName name) ∧ fk.Named ∧ rest.Named

instance decidableNamed : DecidablePred Named
  | column _ => inferInstanceAs (Decidable (Path.IsName _))
  | through _ rest =>
    have := decidableNamed rest
    inferInstanceAs (Decidable (_ ∧ _))
  | joined _ _ fk rest =>
    have := decidableNamed fk
    have := decidableNamed rest
    inferInstanceAs (Decidable (_ ∧ _ ∧ _ ∧ _))

/-- The symbols that the text of a path has. -/
def symbols : ColumnPath → List Path.Symbol
  | column name => [.ofName name]
  | through table rest => .ofName table :: .dot :: rest.symbols
  | joined table child fk rest =>
    .ofName table :: .opening ::
      (Path.childSymbols child ++ (fk.symbols ++ .closing :: .dot :: rest.symbols))

end ColumnPath

namespace TableSpec

def Named (t : TableSpec) : Prop :=
  Path.IsName t.table ∧
    ∀ j ∈ t.join, (∀ name ∈ j.childColumn, Path.IsName name) ∧ j.foreignKey.Named

instance : DecidablePred Named := fun _ => inferInstanceAs (Decidable (_ ∧ _))

/-- The number of brackets around the innermost part. -/
def nesting (t : TableSpec) : ℕ := t.join.elim 0 fun j => j.foreignKey.nesting + 1

/-- The path that goes through a table first. -/
def before (t : TableSpec) (rest : ColumnPath) : ColumnPath :=
  match t.join with
  | none => .through t.table rest
  | some j => .joined t.table j.childColumn j.foreignKey rest

def symbols (t : TableSpec) : List Path.Symbol :=
  .ofName t.table :: t.join.elim [] fun j =>
    .opening :: (Path.childSymbols j.childColumn ++ (j.foreignKey.symbols ++ [.closing]))

variable {t : TableSpec} {p : ColumnPath}

theorem symbols_before : (t.before p).symbols = t.symbols ++ .dot :: p.symbols := by
  obtain ⟨table, _ | j⟩ := t <;> simp [before, symbols, ColumnPath.symbols]

theorem tables_before : (t.before p).tables = t :: p.tables := by
  obtain ⟨table, _ | j⟩ := t <;> simp [before, ColumnPath.tables]

theorem named_before : (t.before p).Named ↔ t.Named ∧ p.Named := by
  obtain ⟨table, _ | j⟩ := t <;> simp [before, Named, ColumnPath.Named, and_assoc]

end TableSpec

namespace Path

/-- What follows a path in a text: neither a dot nor an opening bracket, which would go on
with it. -/
def Stops (xs : List Symbol) : Prop := ∀ x ∈ xs.head?, x ≠ .dot ∧ x ≠ .opening

theorem stops_nil : Stops [] := by simp [Stops]

theorem stops_closing (xs : List Symbol) : Stops (.closing :: xs) := by simp [Stops]

/-- A path does not begin with a name and an equals sign, whatever follows it. -/
theorem symbols_ne_equals {p : ColumnPath} {name : String} {xs ys : List Symbol}
    (hxs : ∀ zs, xs ≠ .equals :: zs) : p.symbols ++ xs ≠ .ofName name :: .equals :: ys := by
  cases p with
  | column _ => simpa [ColumnPath.symbols] using fun _ => hxs ys
  | through _ _ => simp [ColumnPath.symbols]
  | joined _ _ _ _ => simp [ColumnPath.symbols]

/-- Symbols belong to one path at most. -/
theorem symbols_inj {p q : ColumnPath} {xs ys : List Symbol} (hp : p.Named) (hq : q.Named)
    (hxs : Stops xs) (hys : Stops ys) (h : p.symbols ++ xs = q.symbols ++ ys) :
    p = q ∧ xs = ys := by
  induction p generalizing q xs ys with
  | column name =>
    cases q with
    | column name' =>
      simp only [ColumnPath.symbols, List.cons_append, List.nil_append, List.cons.injEq] at h
      exact ⟨by rw [hp.ofName_inj hq h.1], h.2⟩
    | through table rest =>
      simp only [ColumnPath.symbols, List.cons_append, List.nil_append, List.cons.injEq] at h
      exact absurd rfl (hxs .dot (by simp [h.2])).1
    | joined table child fk rest =>
      simp only [ColumnPath.symbols, List.cons_append, List.nil_append, List.cons.injEq] at h
      exact absurd rfl (hxs .opening (by simp [h.2])).2
  | through table rest ih =>
    cases q with
    | column name =>
      simp only [ColumnPath.symbols, List.cons_append, List.nil_append, List.cons.injEq] at h
      exact absurd rfl (hys .dot (by simp [← h.2])).1
    | through table' rest' =>
      simp only [ColumnPath.symbols, List.cons_append, List.cons.injEq, true_and] at h
      obtain ⟨rfl, rfl⟩ := ih hp.2 hq.2 hxs hys h.2
      exact ⟨by rw [hp.1.ofName_inj hq.1 h.1], rfl⟩
    | joined _ _ _ _ => simp [ColumnPath.symbols] at h
  | joined table child fk rest ihfk ih =>
    cases q with
    | column name =>
      simp only [ColumnPath.symbols, List.cons_append, List.nil_append, List.cons.injEq] at h
      exact absurd rfl (hys .opening (by simp [← h.2])).2
    | through _ _ => simp [ColumnPath.symbols] at h
    | joined table' child' fk' rest' =>
      obtain ⟨htable, hchild, hfk, hrest⟩ := hp
      obtain ⟨htable', hchild', hfk', hrest'⟩ := hq
      simp only [ColumnPath.symbols, List.cons_append, List.append_assoc, List.cons.injEq,
        true_and] at h
      have hinner : child = child' ∧ fk.symbols ++ .closing :: .dot :: (rest.symbols ++ xs) =
          fk'.symbols ++ .closing :: .dot :: (rest'.symbols ++ ys) := by
        obtain ⟨-, h⟩ := h
        cases child with
        | none =>
          cases child' with
          | none => exact ⟨rfl, h⟩
          | some name => exact absurd h (symbols_ne_equals (by simp))
        | some name =>
          cases child' with
          | none => exact absurd h.symm (symbols_ne_equals (by simp))
          | some name' =>
            simp only [childSymbols, List.cons_append, List.nil_append, List.cons.injEq,
              true_and] at h
            exact ⟨by rw [(hchild name rfl).ofName_inj (hchild' name' rfl) h.1], h.2⟩
      obtain ⟨rfl, hinner⟩ := hinner
      obtain ⟨rfl, houter⟩ := ihfk hfk hfk' (stops_closing _) (stops_closing _) hinner
      simp only [List.cons.injEq, true_and] at houter
      obtain ⟨rfl, rfl⟩ := ih hrest hrest' hxs hys houter
      exact ⟨by rw [htable.ofName_inj htable' h.1], rfl⟩

/-- The path from the record through the tables. -/
def throughTables (tables : List TableSpec) (p : ColumnPath) : ColumnPath :=
  tables.foldr TableSpec.before p

theorem tables_throughTables (tables : List TableSpec) (name : String) :
    (throughTables tables (.column name)).tables = tables := by
  induction tables with
  | nil => rfl
  | cons t tables ih =>
    show (t.before (throughTables tables _)).tables = _
    rw [TableSpec.tables_before, ih]

theorem named_throughTables {tables : List TableSpec} {p : ColumnPath} :
    (throughTables tables p).Named ↔ (∀ t ∈ tables, t.Named) ∧ p.Named := by
  induction tables with
  | nil => simp [throughTables]
  | cons t tables ih =>
    show (t.before (throughTables tables _)).Named ↔ _
    rw [TableSpec.named_before, ih]
    simp [and_assoc]

theorem symbols_throughTables {tables : List TableSpec} {p : ColumnPath} (hne : tables ≠ []) :
    (throughTables tables p).symbols =
      [.dot].intercalate (tables.map TableSpec.symbols) ++ .dot :: p.symbols := by
  induction tables with
  | nil => exact absurd rfl hne
  | cons t tables ih =>
    show (t.before (throughTables tables _)).symbols = _
    rw [TableSpec.symbols_before]
    cases tables with
    | nil => simp [throughTables, List.intercalate_singleton]
    | cons u us =>
      rw [ih (by simp)]
      simp [List.intercalate_cons_cons]

/-- Symbols belong to one list of tables at most, as they do before the name of a column. -/
theorem tables_symbols_inj {ts us : List TableSpec} (htsNe : ts ≠ []) (husNe : us ≠ [])
    (hts : ∀ t ∈ ts, t.Named) (hus : ∀ t ∈ us, t.Named)
    (h : ([Symbol.dot].intercalate (ts.map TableSpec.symbols)) =
      [.dot].intercalate (us.map TableSpec.symbols)) : ts = us := by
  have hname : ColumnPath.Named (.column defaultChildColumn) := by decide +kernel
  obtain ⟨heq, -⟩ := symbols_inj (named_throughTables.2 ⟨hts, hname⟩)
    (named_throughTables.2 ⟨hus, hname⟩) stops_nil stops_nil
    (by rw [symbols_throughTables htsNe, symbols_throughTables husNe, h])
  rw [← tables_throughTables ts defaultChildColumn, heq, tables_throughTables]

end Path
end RecordGraph
