import Mathlib.Data.Set.Subsingleton
import RecordGraph.Proofs.PathReading

/-!
# The grammar of paths

A derivation puts tokens in a row, each with blanks before it. The texts that can
be read are those with a derivation whose brackets are not too deep, and what is
read is the tree of the derivation: a text has one tree at most.
-/
namespace RecordGraph

namespace Path

/-- A name, with blanks before it. -/
structure NameToken (name : String) (s : List Char) : Prop where
  isName : IsName name
  spaced : Spaced name.toList s

mutual

/-- `table := name ('[' (name '=')? columnPath ']')?` -/
inductive DerivesTable : TableSpec → List Char → Prop
  | plain {table : String} {s : List Char} (name : NameToken table s) :
    DerivesTable ⟨table, none⟩ s
  | joined {table : String} {fk : ColumnPath} {s₁ s₂ s₃ s₄ : List Char}
    (name : NameToken table s₁) (opening : Spaced ['['] s₂) (foreignKey : DerivesPath fk s₃)
    (closing : Spaced [']'] s₄) :
    DerivesTable ⟨table, some ⟨none, fk⟩⟩ (s₁ ++ (s₂ ++ (s₃ ++ s₄)))
  | joinedBy {table column : String} {fk : ColumnPath} {s₁ s₂ s₃ s₄ s₅ s₆ : List Char}
    (name : NameToken table s₁) (opening : Spaced ['['] s₂) (child : NameToken column s₃)
    (equals : Spaced ['='] s₄) (foreignKey : DerivesPath fk s₅) (closing : Spaced [']'] s₆) :
    DerivesTable ⟨table, some ⟨some column, fk⟩⟩ (s₁ ++ (s₂ ++ (s₃ ++ (s₄ ++ (s₅ ++ s₆)))))

/-- `columnPath := (table '.')* name` -/
inductive DerivesPath : ColumnPath → List Char → Prop
  | column {column : String} {s : List Char} (name : NameToken column s) :
    DerivesPath (.column column) s
  | before {t : TableSpec} {p : ColumnPath} {s₁ s₂ s₃ : List Char} (table : DerivesTable t s₁)
    (dot : Spaced ['.'] s₂) (path : DerivesPath p s₃) :
    DerivesPath (t.before p) (s₁ ++ (s₂ ++ s₃))

end

/-- `tablePath := table ('.' table)*` -/
inductive DerivesTables : List TableSpec → List Char → Prop
  | last {t : TableSpec} {s : List Char} (table : DerivesTable t s) : DerivesTables [t] s
  | before {t : TableSpec} {tables : List TableSpec} {s₁ s₂ s₃ : List Char}
    (table : DerivesTable t s₁) (dot : Spaced ['.'] s₂) (more : DerivesTables tables s₃) :
    DerivesTables (t :: tables) (s₁ ++ (s₂ ++ s₃))

/-! ## Symbols of a derivation -/

/-- The symbols of `s` are `xs`, whatever follows that does not go on with a name. -/
def Yields (s : List Char) (xs : List Symbol) : Prop :=
  ∀ r, Ends r → symbols (s ++ r) = xs ++ symbols r

theorem NameToken.yields {name : String} {s : List Char} (h : NameToken name s) :
    Yields s [.ofName name] := fun _ hr => h.spaced.symbols_name h.isName hr

theorem Yields.mark {c : Char} {s₁ s₂ s₃ : List Char} {xs ys : List Symbol} (h : Yields s₁ xs)
    (hs₂ : Spaced [c] s₂) (hc : isMark c = true)
    (h' : Yields s₃ ys) :
    Yields (s₁ ++ (s₂ ++ s₃)) (xs ++ .ofMark c :: ys) := by
  intro r hr
  rw [List.append_assoc, List.append_assoc, h _ (hs₂.ends_mark hc), hs₂.symbols_mark hc, h' r hr]
  simp

theorem Yields.append_mark {c : Char} {s₁ s₂ : List Char} {xs : List Symbol} (h : Yields s₁ xs)
    (hs₂ : Spaced [c] s₂) (hc : isMark c = true) : Yields (s₁ ++ s₂) (xs ++ [.ofMark c]) := by
  intro r hr
  rw [List.append_assoc, h _ (hs₂.ends_mark hc), hs₂.symbols_mark hc]
  simp

mutual

theorem DerivesTable.yields {t : TableSpec} {s : List Char} :
    DerivesTable t s → t.Named ∧ Yields s t.symbols
  | .plain name => ⟨⟨name.isName, by simp⟩, name.yields⟩
  | .joined name opening foreignKey closing => by
    obtain ⟨hfk, hyields⟩ := foreignKey.yields
    exact ⟨⟨name.isName, by simp [hfk]⟩,
      name.yields.mark opening rfl (hyields.append_mark closing rfl)⟩
  | .joinedBy name opening child equals foreignKey closing => by
    obtain ⟨hfk, hyields⟩ := foreignKey.yields
    refine ⟨⟨name.isName, by simp [hfk, child.isName]⟩, ?_⟩
    exact name.yields.mark opening rfl
      (child.yields.mark equals rfl (hyields.append_mark closing rfl))

theorem DerivesPath.yields {p : ColumnPath} {s : List Char} :
    DerivesPath p s → p.Named ∧ Yields s p.symbols
  | .column name => ⟨name.isName, name.yields⟩
  | .before table dot path => by
    obtain ⟨ht, htable⟩ := table.yields
    obtain ⟨hp, hpath⟩ := path.yields
    refine ⟨TableSpec.named_before.2 ⟨ht, hp⟩, ?_⟩
    rw [TableSpec.symbols_before]
    exact htable.mark dot rfl hpath

end

theorem DerivesTables.yields {tables : List TableSpec} {s : List Char}
    (h : DerivesTables tables s) :
    (∀ t ∈ tables, t.Named) ∧ Yields s ([.dot].intercalate (tables.map TableSpec.symbols)) := by
  induction h with
  | last table => simpa [List.intercalate_singleton] using table.yields
  | before table dot more ih =>
    obtain ⟨ht, htable⟩ := table.yields
    obtain ⟨hall, hmore⟩ := ih
    refine ⟨by simpa using ⟨ht, hall⟩, ?_⟩
    have hyields := htable.mark dot rfl hmore
    cases more <;> simpa [List.intercalate_cons_cons, Symbol.ofMark] using hyields

/-! ## A derivation of symbols -/

/-- A text whose symbols begin with `xs` begins with one of `derives`. -/
def Splits (derives : List Char → Prop) (xs : List Symbol) : Prop :=
  ∀ s ys, symbols s = xs ++ ys → ∃ s₁ s₂, derives s₁ ∧ s = s₁ ++ s₂ ∧ symbols s₂ = ys

theorem splits_name {name : String} (h : IsName name) : Splits (NameToken name) [.ofName name] := by
  intro s ys hs
  obtain ⟨s₁, s₂, hspaced, rfl, hys, -⟩ := symbols_eq_cons hs
  exact ⟨s₁, s₂, ⟨h, by rwa [← h.text_ofName]⟩, rfl, hys⟩

theorem splits_mark {c : Char} (hc : isMark c = true) : Splits (Spaced [c]) [.ofMark c] := by
  intro s ys hs
  obtain ⟨s₁, s₂, hspaced, rfl, hys, -⟩ := symbols_eq_cons hs
  exact ⟨s₁, s₂, by rwa [← text_ofMark hc], rfl, hys⟩

theorem Splits.append {d d' : List Char → Prop} {xs ys : List Symbol} (h : Splits d xs)
    (h' : Splits d' ys) :
    Splits (fun s => ∃ s₁ s₂, d s₁ ∧ d' s₂ ∧ s = s₁ ++ s₂) (xs ++ ys) := by
  intro s zs hs
  rw [List.append_assoc] at hs
  obtain ⟨s₁, s₂, hs₁, rfl, hs₂⟩ := h s _ hs
  obtain ⟨s₃, s₄, hs₃, rfl, hs₄⟩ := h' s₂ _ hs₂
  exact ⟨s₁ ++ s₃, s₄, ⟨s₁, s₃, hs₁, hs₃, rfl⟩, by simp, hs₄⟩

theorem Splits.mono {d d' : List Char → Prop} {xs : List Symbol} (h : Splits d xs)
    (hd : ∀ s, d s → d' s) : Splits d' xs := by
  intro s ys hs
  obtain ⟨s₁, s₂, hs₁, rfl, hs₂⟩ := h s ys hs
  exact ⟨s₁, s₂, hd s₁ hs₁, rfl, hs₂⟩

/-- The foreign key of a join is derived before its table. -/
theorem splits_table {t : TableSpec} (ht : t.Named)
    (hfk : ∀ j ∈ t.join, Splits (DerivesPath j.foreignKey) j.foreignKey.symbols) :
    Splits (DerivesTable t) t.symbols := by
  obtain ⟨table, join⟩ := t
  obtain ⟨htable, hjoin⟩ := ht
  cases join with
  | none => exact (splits_name htable).mono fun s => .plain
  | some j =>
    obtain ⟨child, fk⟩ := j
    have hpath := hfk _ rfl
    cases child with
    | none =>
      refine ((splits_name htable).append ((splits_mark (c := '[') rfl).append
        (hpath.append (splits_mark (c := ']') rfl)))).mono ?_
      rintro _ ⟨s₁, _, hs₁, ⟨s₂, _, hs₂, ⟨s₃, s₄, hs₃, hs₄, rfl⟩, rfl⟩, rfl⟩
      exact .joined hs₁ hs₂ hs₃ hs₄
    | some column =>
      have hcolumn := (hjoin _ rfl).1 column rfl
      refine ((splits_name htable).append ((splits_mark (c := '[') rfl).append
        ((splits_name hcolumn).append ((splits_mark (c := '=') rfl).append
          (hpath.append (splits_mark (c := ']') rfl)))))).mono ?_
      rintro _ ⟨s₁, _, hs₁, ⟨s₂, _, hs₂, ⟨s₃, _, hs₃, ⟨s₄, _, hs₄, ⟨s₅, s₆, hs₅, hs₆, rfl⟩, rfl⟩,
        rfl⟩, rfl⟩, rfl⟩
      exact .joinedBy hs₁ hs₂ hs₃ hs₄ hs₅ hs₆

theorem Splits.before {t : TableSpec} {p : ColumnPath} (ht : Splits (DerivesTable t) t.symbols)
    (hp : Splits (DerivesPath p) p.symbols) :
    Splits (DerivesPath (t.before p)) (t.before p).symbols := by
  rw [TableSpec.symbols_before]
  refine (ht.append ((splits_mark (c := '.') rfl).append hp)).mono ?_
  rintro _ ⟨s₁, _, hs₁, ⟨s₂, s₃, hs₂, hs₃, rfl⟩, rfl⟩
  exact .before hs₁ hs₂ hs₃

theorem splits_path {p : ColumnPath} (hp : p.Named) : Splits (DerivesPath p) p.symbols := by
  induction p with
  | column name => exact (splits_name hp).mono fun s => .column
  | through table rest ih =>
    have ht : Splits (DerivesTable ⟨table, none⟩) _ := splits_table ⟨hp.1, by simp⟩ (by simp)
    exact ht.before (ih hp.2)
  | joined table child fk rest ihfk ih =>
    obtain ⟨htable, hchild, hfk, hrest⟩ := hp
    have ht : Splits (DerivesTable ⟨table, some ⟨child, fk⟩⟩) _ :=
      splits_table ⟨htable, by simpa using ⟨hchild, hfk⟩⟩ (by simpa using ihfk hfk)
    exact ht.before (ih hrest)

theorem splits_tables {tables : List TableSpec} (hne : tables ≠ []) (h : ∀ t ∈ tables, t.Named) :
    Splits (DerivesTables tables) ([.dot].intercalate (tables.map TableSpec.symbols)) := by
  induction tables with
  | nil => exact absurd rfl hne
  | cons t tables ih =>
    have ht : Splits (DerivesTable t) t.symbols :=
      splits_table (h t (by simp)) fun j hj => splits_path ((h t (by simp)).2 j hj).2
    cases tables with
    | nil =>
      simp only [List.map_cons, List.map_nil, List.intercalate_singleton]
      exact ht.mono fun s => .last
    | cons u us =>
      simp only [List.map_cons, List.intercalate_cons_cons, List.append_assoc]
      refine (ht.append ((splits_mark (c := '.') rfl).append
        (ih (by simp) fun v hv => h v (by simp [hv])))).mono ?_
      rintro _ ⟨s₁, _, hs₁, ⟨s₂, s₃, hs₂, hs₃, rfl⟩, rfl⟩
      exact .before hs₁ hs₂ hs₃

/-! ## Sentences -/

/-- A text of `derives`, with blanks after it. -/
def Sentence (derives : List Char → Prop) (s : List Char) : Prop :=
  ∃ body blanks, derives body ∧ IsBlanks blanks ∧ s = body ++ blanks

theorem sentence_iff {derives : List Char → Prop} {xs : List Symbol} {s : List Char}
    (hsplits : Splits derives xs) (hyields : ∀ body, derives body → Yields body xs) :
    Sentence derives s ↔ symbols s = xs := by
  constructor
  · rintro ⟨body, blanks, hbody, hblanks, rfl⟩
    have hends : Ends blanks := by simpa using hblanks.ends (r := []) (by simp [Ends])
    rw [hyields body hbody blanks hends, symbols_eq_nil.2 hblanks, List.append_nil]
  · intro h
    obtain ⟨body, blanks, hbody, rfl, hblanks⟩ := hsplits s [] (by simpa using h)
    exact ⟨body, blanks, hbody, symbols_eq_nil.1 hblanks, rfl⟩

theorem sentence_path_iff {p : ColumnPath} {s : List Char} :
    Sentence (DerivesPath p) s ↔ p.Named ∧ symbols s = p.symbols := by
  constructor
  · rintro ⟨body, blanks, hbody, hs⟩
    have hp := hbody.yields.1
    exact ⟨hp, (sentence_iff (splits_path hp) fun _ h => h.yields.2).1 ⟨body, blanks, hbody, hs⟩⟩
  · rintro ⟨hp, h⟩
    exact (sentence_iff (splits_path hp) fun _ h => h.yields.2).2 h

theorem sentence_tables_iff {tables : List TableSpec} {s : List Char} :
    Sentence (DerivesTables tables) s ↔ tables ≠ [] ∧ (∀ t ∈ tables, t.Named) ∧
      symbols s = [.dot].intercalate (tables.map TableSpec.symbols) := by
  constructor
  · rintro ⟨body, blanks, hbody, hs⟩
    have hne : tables ≠ [] := by cases hbody <;> simp
    have hall := hbody.yields.1
    exact ⟨hne, hall,
      (sentence_iff (splits_tables hne hall) fun _ h => h.yields.2).1 ⟨body, blanks, hbody, hs⟩⟩
  · rintro ⟨hne, hall, h⟩
    exact (sentence_iff (splits_tables hne hall) fun _ h => h.yields.2).2 h

/-- A text is a sentence of one path at most. -/
theorem sentence_path_inj {p q : ColumnPath} {s : List Char} (hp : Sentence (DerivesPath p) s)
    (hq : Sentence (DerivesPath q) s) : p = q := by
  obtain ⟨hpNamed, hpSymbols⟩ := sentence_path_iff.1 hp
  obtain ⟨hqNamed, hqSymbols⟩ := sentence_path_iff.1 hq
  exact (symbols_inj hpNamed hqNamed stops_nil stops_nil (by rw [← hpSymbols, hqSymbols])).1

theorem sentence_tables_inj {ts us : List TableSpec} {s : List Char}
    (hts : Sentence (DerivesTables ts) s) (hus : Sentence (DerivesTables us) s) : ts = us := by
  obtain ⟨htsNe, htsNamed, htsSymbols⟩ := sentence_tables_iff.1 hts
  obtain ⟨husNe, husNamed, husSymbols⟩ := sentence_tables_iff.1 hus
  exact tables_symbols_inj htsNe husNe htsNamed husNamed (by rw [← htsSymbols, husSymbols])

/-- The reader of column paths reads the sentences that are nested at most 32 deep, each as its
only tree, and the reader of table paths does the same. -/
theorem parse_iff_sentence (text : String) :
    (∀ p, ColumnPath.parse text = .ok p ↔
      Sentence (DerivesPath p) text.toList ∧ p.nesting ≤ 32) ∧
    {p | Sentence (DerivesPath p) text.toList}.Subsingleton ∧
    (∀ tables, TableSpec.parsePath text = .ok tables ↔
      Sentence (DerivesTables tables) text.toList ∧ ∀ t ∈ tables, t.nesting ≤ 32) ∧
    {tables | Sentence (DerivesTables tables) text.toList}.Subsingleton := by
  refine ⟨fun p => ?_, fun p hp q hq => sentence_path_inj hp hq, fun tables => ?_,
    fun ts hts us hus => sentence_tables_inj hts hus⟩
  · rw [ColumnPath.parse_eq_ok, sentence_path_iff, and_assoc]
    rfl
  · rw [TableSpec.parsePath_eq_ok, sentence_tables_iff]
    constructor
    · rintro ⟨hne, hall, hsymbols⟩
      exact ⟨⟨hne, fun t ht => (hall t ht).1, hsymbols⟩, fun t ht => (hall t ht).2⟩
    · rintro ⟨⟨hne, hall, hsymbols⟩, hdepth⟩
      exact ⟨hne, fun t ht => ⟨hall t ht, hdepth t ht⟩, hsymbols⟩

end Path
end RecordGraph
