import RecordGraph.Path.Parser
import RecordGraph.Proofs.Outcome
import RecordGraph.Proofs.PathSymbols

/-!
# Reading symbols

The reader takes a path from the front of the tokens exactly if the symbols there
are those of the path, the brackets are not too deep, and the path does not go
on. What it leaves is what follows the symbols of the path.
-/
namespace RecordGraph

namespace Path

/-- The result of a reader is `a`, with `rest` left. -/
def Reads {α : Type} {ts : List Token} (result : Except Fault (α × Rest ts)) (a : α)
    (rest : List Token) : Prop := ∃ h, result = .ok (a, ⟨rest, h⟩)

/-! ## One step of the reader -/

section
variable {finish depth opening : ℕ} {ts rest : List Token} {p q : ColumnPath}

theorem expectClosing_eq_ok {h : rest.length < ts.length} :
    expectClosing opening ts = .ok ⟨rest, h⟩ ↔ ∃ position, ts = ⟨.closing, position⟩ :: rest := by
  constructor
  · intro hok
    unfold expectClosing at hok
    split at hok
    · cases hok
      exact ⟨_, rfl⟩
    · cases hok
    · cases hok
  · rintro ⟨position, rfl⟩
    rfl

theorem reads_through {c : Char} {more : List Char} {i j : ℕ} :
    Reads (columnPath finish depth (⟨.name c more, i⟩ :: ⟨.dot, j⟩ :: ts)) q rest ↔
      ∃ p, Reads (columnPath finish depth ts) p rest ∧
        q = .through (String.ofList (c :: more)) p := by
  constructor
  · rintro ⟨hlt, h⟩
    rw [columnPath] at h
    obtain ⟨⟨p, rest', hlt'⟩, hp, h⟩ := bind_eq_ok.1 h
    cases h
    exact ⟨p, ⟨hlt', hp⟩, rfl⟩
  · rintro ⟨p, ⟨hlt, hp⟩, rfl⟩
    refine ⟨by simp only [List.length_cons]; omega, ?_⟩
    rw [columnPath, hp]
    rfl

theorem reads_joined {c : Char} {more : List Char} {i j : ℕ} :
    Reads (columnPath finish depth (⟨.name c more, i⟩ :: ⟨.opening, j⟩ :: ts)) q rest ↔
      depth < maxNesting ∧ ∃ fk p k l after,
        Reads (columnPath finish (depth + 1) (splitChild ts).2) fk
          (⟨.closing, k⟩ :: ⟨.dot, l⟩ :: after) ∧
        Reads (columnPath finish depth after) p rest ∧
        q = .joined (String.ofList (c :: more)) (splitChild ts).1 fk p := by
  constructor
  · rintro ⟨hlt, h⟩
    rw [columnPath] at h
    split at h
    · cases h
    · next hdepth =>
      refine ⟨by omega, ?_⟩
      obtain ⟨⟨fk, inner, hinner⟩, hfk, h⟩ := bind_eq_ok.1 h
      obtain ⟨⟨outer, houter⟩, hclosing, h⟩ := bind_eq_ok.1 h
      obtain ⟨k, rfl⟩ := expectClosing_eq_ok.1 hclosing
      dsimp only at h
      split at h
      · next l after _ =>
        obtain ⟨⟨p, rest', hlt'⟩, hp, h⟩ := bind_eq_ok.1 h
        cases h
        exact ⟨fk, p, k, l, after, ⟨hinner, hfk⟩, ⟨hlt', hp⟩, rfl⟩
      · cases h
  · rintro ⟨hdepth, fk, p, k, l, after, ⟨hinner, hfk⟩, ⟨hlt, hp⟩, rfl⟩
    refine ⟨?_, ?_⟩
    · have := length_splitChild_le ts
      simp only [List.length_cons] at hinner ⊢
      omega
    · rw [columnPath, if_neg (by omega), hfk]
      simp only [bind, Except.bind, expectClosing]
      rw [hp]
      rfl

/-- What goes on with a path is a dot or an opening bracket. -/
theorem exists_of_not_stops (h : ¬ Stops (ts.map Token.symbol)) :
    ∃ t after, ts = t :: after ∧ (t.symbol = .dot ∨ t.symbol = .opening) := by
  cases ts with
  | nil => exact absurd stops_nil h
  | cons t after =>
    refine ⟨t, after, rfl, ?_⟩
    by_contra hx
    rw [not_or] at hx
    exact h (by simpa [Stops] using hx)

/-- A name that nothing goes on with is a column. -/
theorem reads_column {c : Char} {more : List Char} {i : ℕ}
    (hstops : Stops (ts.map Token.symbol)) :
    Reads (columnPath finish depth (⟨.name c more, i⟩ :: ts)) q rest ↔
      q = .column (String.ofList (c :: more)) ∧ rest = ts := by
  have hdot : ∀ j after, ts = ⟨.dot, j⟩ :: after → False := by
    rintro j after rfl
    exact (hstops .dot (by simp)).1 rfl
  have hopening : ∀ j after, ts = ⟨.opening, j⟩ :: after → False := by
    rintro j after rfl
    exact (hstops .opening (by simp)).2 rfl
  unfold Reads
  rw [columnPath]
  · constructor
    · rintro ⟨hlt, h⟩
      cases h
      exact ⟨rfl, rfl⟩
    · rintro ⟨rfl, rfl⟩
      exact ⟨by simp, rfl⟩
  · exact hdot
  · exact hopening

/-- A path begins with a name. -/
theorem exists_name_of_reads (h : Reads (columnPath finish depth ts) q rest) :
    ∃ c more i after, ts = ⟨.name c more, i⟩ :: after := by
  obtain ⟨hlt, h⟩ := h
  unfold columnPath at h
  split at h
  · exact ⟨_, _, _, _, rfl⟩
  · exact ⟨_, _, _, _, rfl⟩
  · exact ⟨_, _, _, _, rfl⟩
  · cases h
  · cases h

end

/-! ## The child column of a join -/

section
variable {ts : List Token} {xs : List Symbol}

theorem map_symbol_splitChild : ts.map Token.symbol =
    childSymbols (splitChild ts).1 ++ (splitChild ts).2.map Token.symbol := by
  unfold splitChild
  split
  · simp only [childSymbols, ofName_ofList, List.map_cons, List.cons_append, List.nil_append]
  · rfl

theorem wellNamed_splitChild (h : WellNamed (ts.map Token.symbol)) :
    (∀ name ∈ (splitChild ts).1, IsName name) ∧
      WellNamed ((splitChild ts).2.map Token.symbol) := by
  unfold splitChild
  split
  · next c more _ _ _ =>
    constructor
    · rintro _ ⟨⟩
      exact h c more (by simp)
    · exact fun c more hmem => h c more (by simp [hmem])
  · exact ⟨by simp, h⟩

theorem splitChild_of_map_symbol {child : Option String} (hchild : ∀ name ∈ child, IsName name)
    (hxs : child = none → ∀ name ys, xs ≠ .ofName name :: .equals :: ys)
    (h : ts.map Token.symbol = childSymbols child ++ xs) :
    (splitChild ts).1 = child ∧ (splitChild ts).2.map Token.symbol = xs := by
  cases child with
  | none =>
    unfold splitChild
    split
    · next c more i j after =>
      have hne := hxs rfl (String.ofList (c :: more)) (after.map Token.symbol)
      rw [ofName_ofList] at hne
      exact absurd h.symm hne
    · exact ⟨rfl, h⟩
  | some name =>
    obtain ⟨c, more, rfl, hname⟩ := (hchild name rfl).exists
    simp only [childSymbols, hname, List.cons_append, List.nil_append] at h
    obtain ⟨⟨x, i⟩, ts, rfl, rfl, h'⟩ := List.map_eq_cons_iff.1 h
    obtain ⟨⟨y, j⟩, ts, rfl, rfl, rfl⟩ := List.map_eq_cons_iff.1 h'
    exact ⟨rfl, rfl⟩

end

/-! ## Whole paths -/

section
variable {finish depth : ℕ} {ts rest : List Token} {p : ColumnPath}

/-- What is read is the front of the tokens. -/
theorem symbols_of_reads (hnames : WellNamed (ts.map Token.symbol)) (hdepth : depth ≤ maxNesting)
    (h : Reads (columnPath finish depth ts) p rest) :
    p.Named ∧ ts.map Token.symbol = p.symbols ++ rest.map Token.symbol ∧
      p.nesting + depth ≤ maxNesting := by
  induction hlen : ts.length using Nat.strong_induction_on generalizing depth ts p rest with
  | _ len ih =>
    subst hlen
    obtain ⟨c, more, i, ts, rfl⟩ := exists_name_of_reads h
    have hname : IsName (String.ofList (c :: more)) := hnames c more (by simp)
    by_cases hstops : Stops (ts.map Token.symbol)
    · obtain ⟨rfl, rfl⟩ := (reads_column hstops).1 h
      refine ⟨hname, ?_, by simpa [ColumnPath.nesting] using hdepth⟩
      simp only [ColumnPath.symbols, ofName_ofList, List.map_cons, List.cons_append,
        List.nil_append]
    · obtain ⟨⟨x, j⟩, ts, rfl, hx⟩ := exists_of_not_stops hstops
      replace hnames : WellNamed (ts.map Token.symbol) :=
        fun c more h => hnames c more (by simp [h])
      rcases hx with rfl | rfl
      · obtain ⟨p, hp, rfl⟩ := reads_through.1 h
        obtain ⟨hpNamed, hsymbols, hnesting⟩ :=
          ih _ (by simp only [List.length_cons]; omega) hnames hdepth hp rfl
        refine ⟨⟨hname, hpNamed⟩, ?_, hnesting⟩
        simp only [ColumnPath.symbols, ofName_ofList, List.map_cons, List.cons_append, hsymbols]
      · obtain ⟨hlt, fk, p, k, l, after, hfk, hp, rfl⟩ := reads_joined.1 h
        have hchild := length_splitChild_le ts
        have hinner := hfk.1
        simp only [List.length_cons] at hinner
        obtain ⟨hfkNamed, hfkSymbols, hfkNesting⟩ :=
          ih _ (by simp only [List.length_cons]; omega) (wellNamed_splitChild hnames).2 hlt hfk rfl
        have hafter : WellNamed (after.map Token.symbol) := by
          intro c more hmem
          apply (wellNamed_splitChild hnames).2 c more
          rw [hfkSymbols]
          simp [hmem]
        obtain ⟨hpNamed, hsymbols, hnesting⟩ :=
          ih _ (by simp only [List.length_cons]; omega) hafter hdepth hp rfl
        refine ⟨⟨hname, (wellNamed_splitChild hnames).1, hfkNamed, hpNamed⟩, ?_, ?_⟩
        · simp only [ColumnPath.symbols, ofName_ofList, List.map_cons, List.cons_append,
            List.append_assoc, ← hsymbols]
          rw [map_symbol_splitChild, hfkSymbols]
          rfl
        · simp only [ColumnPath.nesting]
          omega

/-- A path that the tokens begin with is read, unless it goes on or is too deep. -/
theorem reads_of_symbols {xs : List Symbol} (hp : p.Named) (hdepth : p.nesting + depth ≤ maxNesting)
    (hstops : Stops xs) (h : ts.map Token.symbol = p.symbols ++ xs) :
    ∃ rest, Reads (columnPath finish depth ts) p rest ∧ rest.map Token.symbol = xs := by
  induction p generalizing depth ts xs with
  | column name =>
    obtain ⟨c, more, rfl, hname⟩ := IsName.exists hp
    simp only [ColumnPath.symbols, hname, List.cons_append, List.nil_append] at h
    obtain ⟨⟨x, i⟩, ts, rfl, rfl, rfl⟩ := List.map_eq_cons_iff.1 h
    exact ⟨ts, (reads_column hstops).2 ⟨rfl, rfl⟩, rfl⟩
  | through table rest ih =>
    obtain ⟨htable, hrest⟩ := hp
    obtain ⟨c, more, rfl, hname⟩ := htable.exists
    simp only [ColumnPath.symbols, hname, List.cons_append] at h
    obtain ⟨⟨x, i⟩, ts, rfl, rfl, h'⟩ := List.map_eq_cons_iff.1 h
    obtain ⟨⟨y, j⟩, ts, rfl, rfl, hmore⟩ := List.map_eq_cons_iff.1 h'
    obtain ⟨after, hreads, hafter⟩ := ih hrest hdepth hstops hmore
    exact ⟨after, reads_through.2 ⟨_, hreads, rfl⟩, hafter⟩
  | joined table child fk rest ihfk ih =>
    obtain ⟨htable, hchild, hfk, hrest⟩ := hp
    obtain ⟨c, more, rfl, hname⟩ := htable.exists
    simp only [ColumnPath.nesting] at hdepth
    simp only [ColumnPath.symbols, hname, List.cons_append, List.append_assoc] at h
    obtain ⟨⟨x, i⟩, ts, rfl, rfl, h'⟩ := List.map_eq_cons_iff.1 h
    obtain ⟨⟨y, j⟩, ts, rfl, rfl, hmore⟩ := List.map_eq_cons_iff.1 h'
    -- the child column is told from the foreign key by the equals sign alone
    obtain ⟨rfl, hinner⟩ := splitChild_of_map_symbol hchild
      (fun _ name ys => symbols_ne_equals (by simp)) hmore
    obtain ⟨after, hreadsfk, hafter⟩ := ihfk hfk (by omega : fk.nesting + (depth + 1) ≤ maxNesting)
      (stops_closing _) hinner
    obtain ⟨⟨x, k⟩, after, rfl, rfl, hdot⟩ := List.map_eq_cons_iff.1 hafter
    obtain ⟨⟨y, l⟩, after, rfl, rfl, hpath⟩ := List.map_eq_cons_iff.1 hdot
    obtain ⟨after', hreads, hafter'⟩ := ih hrest (by omega : rest.nesting + depth ≤ maxNesting)
      hstops hpath
    exact ⟨after', reads_joined.2 ⟨by omega, fk, rest, k, l, after, hreadsfk, hreads, rfl⟩, hafter'⟩

end

/-! ## Tables -/

section
variable {finish opening : ℕ} {ts rest : List Token} {t : TableSpec}

theorem reads_spec_joined {c : Char} {more : List Char} {i j : ℕ} :
    Reads (tableSpec finish (⟨.name c more, i⟩ :: ⟨.opening, j⟩ :: ts)) t rest ↔
      ∃ fk k, Reads (columnPath finish 1 (splitChild ts).2) fk (⟨.closing, k⟩ :: rest) ∧
        t = ⟨String.ofList (c :: more), some ⟨(splitChild ts).1, fk⟩⟩ := by
  constructor
  · rintro ⟨hlt, h⟩
    rw [tableSpec] at h
    obtain ⟨⟨fk, inner, hinner⟩, hfk, h⟩ := bind_eq_ok.1 h
    obtain ⟨⟨outer, houter⟩, hclosing, h⟩ := bind_eq_ok.1 h
    obtain ⟨k, rfl⟩ := expectClosing_eq_ok.1 hclosing
    cases h
    exact ⟨fk, k, ⟨hinner, hfk⟩, rfl⟩
  · rintro ⟨fk, k, ⟨hinner, hfk⟩, rfl⟩
    refine ⟨?_, ?_⟩
    · have := length_splitChild_le ts
      simp only [List.length_cons] at hinner ⊢
      omega
    · rw [tableSpec, hfk]
      rfl

theorem reads_spec_plain {c : Char} {more : List Char} {i : ℕ}
    (hopening : ∀ x ∈ (ts.map Token.symbol).head?, x ≠ .opening) :
    Reads (tableSpec finish (⟨.name c more, i⟩ :: ts)) t rest ↔
      t = ⟨String.ofList (c :: more), none⟩ ∧ rest = ts := by
  have hne : ∀ j after, ts = ⟨.opening, j⟩ :: after → False := by
    rintro j after rfl
    exact hopening .opening (by simp) rfl
  unfold Reads
  rw [tableSpec]
  · constructor
    · rintro ⟨hlt, h⟩
      cases h
      exact ⟨rfl, rfl⟩
    · rintro ⟨rfl, rfl⟩
      exact ⟨by simp, rfl⟩
  · exact hne

theorem exists_of_not_opening (h : ¬ ∀ x ∈ (ts.map Token.symbol).head?, x ≠ .opening) :
    ∃ j after, ts = ⟨.opening, j⟩ :: after := by
  cases ts with
  | nil => simp at h
  | cons t after =>
    obtain ⟨x, j⟩ := t
    obtain rfl : x = .opening := by simpa using h
    exact ⟨j, after, rfl⟩

/-- A table begins with a name. -/
theorem exists_name_of_reads_spec (h : Reads (tableSpec finish ts) t rest) :
    ∃ c more i after, ts = ⟨.name c more, i⟩ :: after := by
  obtain ⟨hlt, h⟩ := h
  unfold tableSpec at h
  split at h
  · exact ⟨_, _, _, _, rfl⟩
  · exact ⟨_, _, _, _, rfl⟩
  · cases h
  · cases h

theorem symbols_of_reads_spec (hnames : WellNamed (ts.map Token.symbol))
    (h : Reads (tableSpec finish ts) t rest) :
    t.Named ∧ ts.map Token.symbol = t.symbols ++ rest.map Token.symbol ∧
      t.nesting ≤ maxNesting := by
  obtain ⟨c, more, i, ts, rfl⟩ := exists_name_of_reads_spec h
  have hname : IsName (String.ofList (c :: more)) := hnames c more (by simp)
  by_cases hopening : ∀ x ∈ (ts.map Token.symbol).head?, x ≠ .opening
  · obtain ⟨rfl, rfl⟩ := (reads_spec_plain hopening).1 h
    refine ⟨⟨hname, by simp⟩, ?_, by simp [TableSpec.nesting]⟩
    simp only [TableSpec.symbols, ofName_ofList, List.map_cons, Option.elim_none,
      List.cons_append, List.nil_append]
  · obtain ⟨j, ts, rfl⟩ := exists_of_not_opening hopening
    obtain ⟨fk, k, hfk, rfl⟩ := reads_spec_joined.1 h
    replace hnames : WellNamed (ts.map Token.symbol) := fun c more h => hnames c more (by simp [h])
    obtain ⟨hchild, hinner⟩ := wellNamed_splitChild hnames
    obtain ⟨hfkNamed, hsymbols, hnesting⟩ := symbols_of_reads hinner (by decide) hfk
    refine ⟨⟨hname, by simpa using ⟨hchild, hfkNamed⟩⟩, ?_, hnesting⟩
    simp only [TableSpec.symbols, ofName_ofList, List.map_cons, Option.elim_some,
      List.cons_append, List.append_assoc]
    rw [map_symbol_splitChild, hsymbols]
    rfl

/-- A table that the tokens begin with is read, unless a bracket follows or it is too deep. -/
theorem reads_spec_of_symbols {xs : List Symbol} (ht : t.Named) (hdepth : t.nesting ≤ maxNesting)
    (hopening : ∀ x ∈ xs.head?, x ≠ .opening) (h : ts.map Token.symbol = t.symbols ++ xs) :
    ∃ rest, Reads (tableSpec finish ts) t rest ∧ rest.map Token.symbol = xs := by
  obtain ⟨table, join⟩ := t
  obtain ⟨htable, hjoin⟩ := ht
  obtain ⟨c, more, rfl, hname⟩ := htable.exists
  cases join with
  | none =>
    simp only [TableSpec.symbols, hname, Option.elim_none, List.cons_append, List.nil_append] at h
    obtain ⟨⟨x, i⟩, ts, rfl, rfl, rfl⟩ := List.map_eq_cons_iff.1 h
    exact ⟨ts, (reads_spec_plain hopening).2 ⟨rfl, rfl⟩, rfl⟩
  | some j =>
    obtain ⟨child, fk⟩ := j
    obtain ⟨hchild, hfk⟩ := hjoin _ rfl
    simp only [TableSpec.symbols, hname, Option.elim_some, List.cons_append,
      List.append_assoc] at h
    obtain ⟨⟨x, i⟩, ts, rfl, rfl, h'⟩ := List.map_eq_cons_iff.1 h
    obtain ⟨⟨y, j⟩, ts, rfl, rfl, hmore⟩ := List.map_eq_cons_iff.1 h'
    obtain ⟨rfl, hinner⟩ := splitChild_of_map_symbol hchild
      (fun _ name ys => symbols_ne_equals (by simp)) hmore
    obtain ⟨after, hreads, hafter⟩ := reads_of_symbols hfk hdepth (stops_closing _) hinner
    obtain ⟨⟨x, k⟩, after, rfl, rfl, rfl⟩ := List.map_eq_cons_iff.1 hafter
    exact ⟨after, reads_spec_joined.2 ⟨fk, k, hreads, rfl⟩, rfl⟩

end

/-! ## Tables separated by dots -/

section
variable {finish : ℕ} {ts rest : List Token} {t : TableSpec} {tables : List TableSpec}

theorem reads_specs :
    Reads (tableSpecs finish ts) tables rest ↔
      ∃ t after, Reads (tableSpec finish ts) t after ∧
        ((∃ l more tables', after = ⟨.dot, l⟩ :: more ∧
            Reads (tableSpecs finish more) tables' rest ∧ tables = t :: tables') ∨
          (∀ x ∈ (after.map Token.symbol).head?, x ≠ .dot) ∧ tables = [t] ∧ rest = after) := by
  constructor
  · rintro ⟨hlt, h⟩
    rw [tableSpecs] at h
    obtain ⟨⟨t, after, hafter⟩, ht, hmore⟩ := bind_eq_ok.1 h
    refine ⟨t, after, ⟨hafter, ht⟩, ?_⟩
    clear h
    dsimp only at hmore
    split at hmore
    · next l more =>
      obtain ⟨⟨tables', rest', hlt'⟩, htables, h⟩ := bind_eq_ok.1 hmore
      cases h
      exact .inl ⟨l, more, tables', rfl, ⟨hlt', htables⟩, rfl⟩
    · next hdot =>
      cases hmore
      refine .inr ⟨?_, rfl, rfl⟩
      intro x hx hdotx
      cases rest with
      | nil => simp at hx
      | cons y more =>
        obtain rfl : y.symbol = x := by simpa using hx
        exact hdot y.position more (by rw [← hdotx])
  · rintro ⟨t, after, ⟨hafter, ht⟩, ⟨l, more, tables', rfl, ⟨hlt, htables⟩, rfl⟩ | ⟨hdot, rfl, rfl⟩⟩
    · refine ⟨by simp only [List.length_cons] at hafter; omega, ?_⟩
      rw [tableSpecs, ht]
      simp only [bind, Except.bind]
      rw [htables]
      rfl
    · refine ⟨hafter, ?_⟩
      rw [tableSpecs, ht]
      simp only [bind, Except.bind]
      split
      · exact absurd rfl (hdot .dot (by simp))
      · rfl

theorem symbols_of_reads_specs (hnames : WellNamed (ts.map Token.symbol))
    (h : Reads (tableSpecs finish ts) tables rest) :
    tables ≠ [] ∧ (∀ t ∈ tables, t.Named ∧ t.nesting ≤ maxNesting) ∧
      ts.map Token.symbol =
        [.dot].intercalate (tables.map TableSpec.symbols) ++ rest.map Token.symbol := by
  induction tables generalizing ts with
  | nil =>
    obtain ⟨t, after, -, ⟨_, _, _, _, _, h⟩ | ⟨_, h, _⟩⟩ := reads_specs.1 h <;> cases h
  | cons t tables ih =>
    obtain ⟨t, after, ht, ⟨l, more, _, rfl, htables, h⟩ | ⟨_, h, rfl⟩⟩ := reads_specs.1 h
    · cases h
      obtain ⟨htNamed, hsymbols, hnesting⟩ := symbols_of_reads_spec hnames ht
      have hmore : WellNamed (more.map Token.symbol) := by
        intro c more hmem
        apply hnames c more
        rw [hsymbols]
        simp [hmem]
      obtain ⟨hne, hall, htail⟩ := ih hmore htables
      refine ⟨by simp, ?_, ?_⟩
      · intro u hu
        rcases List.mem_cons.1 hu with rfl | hu
        · exact ⟨htNamed, hnesting⟩
        · exact hall u hu
      · obtain ⟨u, us, rfl⟩ := List.exists_cons_of_ne_nil hne
        rw [hsymbols, List.map_cons, htail]
        simp [List.intercalate_cons_cons]
    · cases h
      obtain ⟨htNamed, hsymbols, hnesting⟩ := symbols_of_reads_spec hnames ht
      refine ⟨by simp, by simp [htNamed, hnesting], ?_⟩
      simpa [List.intercalate_singleton] using hsymbols

/-- Tables that the tokens begin with are read, unless they go on or one is too deep. -/
theorem reads_specs_of_symbols {xs : List Symbol} (hne : tables ≠ [])
    (hall : ∀ t ∈ tables, t.Named ∧ t.nesting ≤ maxNesting) (hstops : Stops xs)
    (h : ts.map Token.symbol = [.dot].intercalate (tables.map TableSpec.symbols) ++ xs) :
    ∃ rest, Reads (tableSpecs finish ts) tables rest ∧ rest.map Token.symbol = xs := by
  induction tables generalizing ts with
  | nil => exact absurd rfl hne
  | cons t tables ih =>
    obtain ⟨ht, hdepth⟩ := hall t (by simp)
    cases tables with
    | nil =>
      simp only [List.map_cons, List.map_nil, List.intercalate_singleton] at h
      obtain ⟨rest, hreads, rfl⟩ : ∃ rest, Reads (tableSpec finish ts) t rest ∧ _ :=
        reads_spec_of_symbols ht hdepth (fun x hx => (hstops x hx).2) h
      exact ⟨rest, reads_specs.2 ⟨t, rest, hreads, .inr ⟨fun x hx => (hstops x hx).1, rfl, rfl⟩⟩,
        rfl⟩
    | cons u us =>
      simp only [List.map_cons, List.intercalate_cons_cons, List.append_assoc,
        List.singleton_append] at h
      obtain ⟨after, hreads, hafter⟩ : ∃ after, Reads (tableSpec finish ts) t after ∧ _ :=
        reads_spec_of_symbols ht hdepth (by simp) h
      obtain ⟨⟨x, l⟩, more, rfl, rfl, hmore⟩ := List.map_eq_cons_iff.1 hafter
      obtain ⟨rest, htables, hrest⟩ := ih (by simp) (fun v hv => hall v (by simp [hv])) hmore
      exact ⟨rest, reads_specs.2 ⟨t, _, hreads, .inl ⟨l, more, _, rfl, htables, rfl⟩⟩, hrest⟩

end

/-! ## Whole texts -/

theorem expectEnd_eq_ok {ts : List Token} : expectEnd ts = .ok () ↔ ts = [] := by
  cases ts with
  | nil => simp [expectEnd]
  | cons t ts =>
    obtain ⟨x, position⟩ := t
    cases x <;> simp [expectEnd]

/-- A text is read if the reader leaves nothing. -/
theorem readAll_eq_ok {α : Type} {text : String} {a : α}
    {reader : ℕ → (ts : List Token) → Except Fault (α × Rest ts)} :
    readAll reader text = .ok a ↔
      Reads (reader text.toList.length (tokens 0 text.toList)) a [] := by
  unfold readAll Reads
  dsimp only
  constructor
  · intro h
    cases hread : reader text.toList.length (tokens 0 text.toList) with
    | error e =>
      rw [hread] at h
      cases h
    | ok result =>
      obtain ⟨b, rest, hlt⟩ := result
      rw [hread] at h
      cases hend : expectEnd rest with
      | error e =>
        simp only [bind, Except.bind, hend] at h
        cases h
      | ok _ =>
        obtain rfl := expectEnd_eq_ok.1 hend
        cases h
        exact ⟨hlt, rfl⟩
  · rintro ⟨hlt, h⟩
    rw [h]
    rfl

end Path

/-- A text is read as a path if its symbols are those of the path. -/
theorem ColumnPath.parse_eq_ok {text : String} {p : ColumnPath} :
    ColumnPath.parse text = .ok p ↔
      p.Named ∧ Path.symbols text.toList = p.symbols ∧ p.nesting ≤ Path.maxNesting := by
  rw [ColumnPath.parse, Path.readAll_eq_ok]
  constructor
  · intro h
    obtain ⟨hp, hsymbols, hnesting⟩ :=
      Path.symbols_of_reads (Path.wellNamed_symbols text.toList) (Nat.zero_le _) h
    exact ⟨hp, by simpa [Path.symbols] using hsymbols, hnesting⟩
  · rintro ⟨hp, hsymbols, hnesting⟩
    obtain ⟨rest, hreads, hrest⟩ := Path.reads_of_symbols hp
      (by simpa using hnesting : p.nesting + 0 ≤ Path.maxNesting) Path.stops_nil
      (by simpa [Path.symbols] using hsymbols)
    obtain rfl := List.map_eq_nil_iff.1 hrest
    exact hreads

theorem TableSpec.parsePath_eq_ok {text : String} {tables : List TableSpec} :
    TableSpec.parsePath text = .ok tables ↔
      tables ≠ [] ∧ (∀ t ∈ tables, t.Named ∧ t.nesting ≤ Path.maxNesting) ∧
        Path.symbols text.toList = [.dot].intercalate (tables.map TableSpec.symbols) := by
  rw [TableSpec.parsePath, Path.readAll_eq_ok]
  constructor
  · intro h
    obtain ⟨hne, hall, hsymbols⟩ :=
      Path.symbols_of_reads_specs (Path.wellNamed_symbols text.toList) h
    exact ⟨hne, hall, by simpa [Path.symbols] using hsymbols⟩
  · rintro ⟨hne, hall, hsymbols⟩
    obtain ⟨rest, hreads, hrest⟩ := Path.reads_specs_of_symbols hne hall Path.stops_nil
      (by simpa [Path.symbols] using hsymbols)
    obtain rfl := List.map_eq_nil_iff.1 hrest
    exact hreads

end RecordGraph
