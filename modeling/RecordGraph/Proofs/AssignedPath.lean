import RecordGraph.Proofs.AssignmentSplit
import RecordGraph.Proofs.PathReading
import RecordGraph.Proofs.TokenPositions

/-!
# Assignments to paths

The brackets of a path are balanced, and all its equals signs stand inside of them. So
an argument that assigns to a path is split right behind the path, at the only equals
sign that has a path before it.
-/
namespace RecordGraph

namespace Path

/-- The open brackets after a symbol; a closing bracket too many does not count. -/
def Symbol.nest (depth : ℕ) : Symbol → ℕ
  | opening => depth + 1
  | closing => depth - 1
  | _ => depth

/-- Every equals sign stands in brackets, of which `depth` are open before the symbols. -/
def Enclosed (depth : ℕ) : List Symbol → Prop
  | [] => True
  | x :: xs => (x = .equals → depth ≠ 0) ∧ Enclosed (x.nest depth) xs

section
variable {depth : ℕ} {xs ys : List Symbol} {s : List Char}

theorem enclosed_append : Enclosed depth (xs ++ ys) ↔
    Enclosed depth xs ∧ Enclosed (xs.foldl Symbol.nest depth) ys := by
  induction xs generalizing depth with
  | nil => simp [Enclosed]
  | cons x xs ih => simp [Enclosed, ih, and_assoc]

/-- A name opens no bracket and is no equals sign. -/
theorem enclosed_ofName {name : String} : Enclosed depth (.ofName name :: xs) ↔ Enclosed depth xs :=
  and_iff_right nofun

theorem nest_ofName (name : String) : (Symbol.ofName name).nest depth = depth := rfl

theorem enclosed_childSymbols (depth : ℕ) (child : Option String) :
    Enclosed (depth + 1) (childSymbols child) ∧
      (childSymbols child).foldl Symbol.nest (depth + 1) = depth + 1 := by
  cases child with
  | none => exact ⟨trivial, rfl⟩
  | some name => exact ⟨enclosed_ofName.2 ⟨fun _ => Nat.succ_ne_zero depth, trivial⟩, rfl⟩

/-- The brackets of a path are balanced, with all equals signs inside of them. -/
theorem enclosed_symbols (p : ColumnPath) (depth : ℕ) :
    Enclosed depth p.symbols ∧ p.symbols.foldl Symbol.nest depth = depth := by
  induction p generalizing depth with
  | column name => exact ⟨enclosed_ofName.2 trivial, rfl⟩
  | through table rest ih => exact ⟨enclosed_ofName.2 ⟨nofun, (ih depth).1⟩, (ih depth).2⟩
  | joined table child fk rest ihfk ih =>
    obtain ⟨hchild, hchildDepth⟩ := enclosed_childSymbols depth child
    obtain ⟨hfk, hfkDepth⟩ := ihfk (depth + 1)
    obtain ⟨hrest, hrestDepth⟩ := ih depth
    constructor
    · refine enclosed_ofName.2 ⟨nofun, enclosed_append.2 ⟨hchild, ?_⟩⟩
      rw [Symbol.nest, hchildDepth, enclosed_append, hfkDepth]
      exact ⟨hfk, nofun, nofun, hrest⟩
    · rw [ColumnPath.symbols, List.foldl_cons, nest_ofName, List.foldl_cons, List.foldl_append,
        Symbol.nest, hchildDepth, List.foldl_append, hfkDepth]
      exact hrestDepth

/-! ## Brackets of a text -/

theorem length_openingsAfter (i : ℕ) (opened : List ℕ) (s : List Char) :
    (openingsAfter i opened s).length = CommandLine.openBrackets opened.length s := by
  induction s generalizing i opened with
  | nil => rfl
  | cons c s ih =>
    have hnest : (if c = '[' then i :: opened else if c = ']' then opened.tail else opened).length =
        CommandLine.nest opened.length c := by
      unfold CommandLine.nest
      split
      · exact List.length_cons
      · split
        · exact List.length_tail
        · rfl
    rw [openingsAfter, ih, hnest]
    rfl

theorem length_foldl_openings (ts : List Token) (opened : List ℕ) :
    (ts.foldl Token.openings opened).length =
      (ts.map Token.symbol).foldl Symbol.nest opened.length := by
  induction ts generalizing opened with
  | nil => rfl
  | cons t ts ih =>
    have hnest : (t.openings opened).length = t.symbol.nest opened.length := by
      obtain ⟨x, position⟩ := t
      cases x <;> simp [Token.openings, Symbol.nest]
    rw [List.foldl_cons, ih, hnest]
    rfl

/-- The open brackets of a text are those of its symbols. -/
theorem openBrackets_eq (s : List Char) :
    CommandLine.openBrackets 0 s = (symbols s).foldl Symbol.nest 0 := by
  rw [symbols, ← List.length_nil (α := ℕ), ← length_foldl_openings, foldl_openings_tokens,
    length_openingsAfter]

theorem symbols_append_equals (s r : List Char) :
    symbols (s ++ '=' :: r) = symbols s ++ .equals :: symbols r := by
  have hends : Ends ('=' :: r) := by simp [Ends, isNameChar, isMark]
  rw [symbols_append hends, symbols_mark (by decide)]
  rfl

/-! ## Blanks around a text -/

theorem symbols_trimStart (s : List Char) : symbols (Text.trimStart s) = symbols s := by
  have hblanks : IsBlanks (s.takeWhile Text.isBlank) := fun c hc => List.mem_takeWhile_imp hc
  rw [Text.trimStart, ← hblanks.symbols_append, List.takeWhile_append_dropWhile]

theorem symbols_trimEnd (s : List Char) : symbols (Text.trimEnd s) = symbols s := by
  have hblanks : IsBlanks (s.reverse.takeWhile Text.isBlank).reverse :=
    fun c hc => List.mem_takeWhile_imp (List.mem_reverse.1 hc)
  have hsplit : s = Text.trimEnd s ++ (s.reverse.takeWhile Text.isBlank).reverse := by
    rw [Text.trimEnd, ← List.reverse_append, List.takeWhile_append_dropWhile, List.reverse_reverse]
  have hends : Ends (s.reverse.takeWhile Text.isBlank).reverse := by
    simpa using hblanks.ends (r := []) (by simp [Ends])
  conv_rhs => rw [hsplit, symbols_append hends, symbols_eq_nil.2 hblanks, List.append_nil]

theorem symbols_trim (s : List Char) : symbols (Text.trim s) = symbols s := by
  rw [Text.trim, symbols_trimEnd, symbols_trimStart]

end

section
variable {text : String} {p : ColumnPath}

/-- A path is read alike without the blanks around it. -/
theorem parse_trim (h : ColumnPath.parse text = .ok p) :
    ColumnPath.parse (String.ofList (Text.trim text.toList)) = .ok p := by
  rw [ColumnPath.parse_eq_ok] at h ⊢
  rwa [String.toList_ofList, symbols_trim]

theorem trim_ne_nil (h : ColumnPath.parse text = .ok p) : Text.trim text.toList ≠ [] := by
  obtain ⟨-, hsymbols, -⟩ := ColumnPath.parse_eq_ok.1 (parse_trim h)
  intro hnil
  rw [hnil, String.toList_ofList, symbols_nil] at hsymbols
  cases p <;> cases hsymbols

end
end Path

namespace CommandLine

open RecordGraph.Path

variable {before after before' after' : List Char} {p q : ColumnPath}

/-- An equals sign with a path before it is the first one outside brackets. -/
theorem splitsAtEquals_of_parse (h : ColumnPath.parse (String.ofList before) = .ok p) :
    SplitsAtEquals 0 (before ++ '=' :: after) before after := by
  obtain ⟨-, hsymbols, -⟩ := ColumnPath.parse_eq_ok.1 h
  rw [String.toList_ofList] at hsymbols
  obtain ⟨henclosed, hbalanced⟩ := enclosed_symbols p 0
  rw [← hsymbols] at henclosed hbalanced
  refine ⟨rfl, by rw [openBrackets_eq, hbalanced], fun l r hl => ?_⟩
  rw [hl, symbols_append_equals, enclosed_append] at henclosed
  rw [openBrackets_eq]
  exact henclosed.2.1 rfl

theorem SplitsAtEquals.unique {depth : ℕ} {s : List Char} (h : SplitsAtEquals depth s before after)
    (h' : SplitsAtEquals depth s before' after') : before = before' ∧ after = after' := by
  have hsame := (splitAtEquals_eq_some.2 h).symm.trans (splitAtEquals_eq_some.2 h')
  exact Prod.mk.inj (Option.some.inj hsame)

/-- An argument that assigns to a path is split behind the path, whatever is assigned. At most
one equals sign of an argument has a path before it, and the argument is split there. -/
theorem splitAssignment_of_parse :
    (∀ path value p, ColumnPath.parse path = .ok p →
      splitAssignment (path ++ "=" ++ value) =
        .ok (String.ofList (Text.trim path.toList), Value.ofTyped value) ∧
      ColumnPath.parse (String.ofList (Text.trim path.toList)) = .ok p) ∧
    (∀ raw : String, ∀ before after before' after' p q,
      raw.toList = before ++ '=' :: after → ColumnPath.parse (String.ofList before) = .ok p →
      raw.toList = before' ++ '=' :: after' → ColumnPath.parse (String.ofList before') = .ok q →
      before = before' ∧ after = after') ∧
    ∀ raw : String, ∀ before after p,
      raw.toList = before ++ '=' :: after → ColumnPath.parse (String.ofList before) = .ok p →
      splitAssignment raw =
        .ok (String.ofList (Text.trim before), Value.ofTyped (String.ofList after)) := by
  have hsplit : ∀ raw : String, ∀ before after p,
      raw.toList = before ++ '=' :: after → ColumnPath.parse (String.ofList before) = .ok p →
      splitAssignment raw =
        .ok (String.ofList (Text.trim before), Value.ofTyped (String.ofList after)) := by
    intro raw before after p hraw hp
    have hne := trim_ne_nil hp
    rw [String.toList_ofList] at hne
    rw [splitAssignment_of_split (hraw ▸ splitsAtEquals_of_parse hp), if_neg hne]
  refine ⟨fun path value p hp => ⟨?_, parse_trim hp⟩, ?_, hsplit⟩
  · have hraw : (path ++ "=" ++ value).toList = path.toList ++ '=' :: value.toList := by simp
    rw [hsplit _ _ _ p hraw (by rwa [String.ofList_toList]), String.ofList_toList]
  · intro raw before after before' after' p q hraw hp hraw' hq
    have hfirst : SplitsAtEquals 0 (before ++ '=' :: after) before after :=
      splitsAtEquals_of_parse hp
    have hsecond : SplitsAtEquals 0 (before' ++ '=' :: after') before' after' :=
      splitsAtEquals_of_parse hq
    rw [← hraw] at hfirst
    rw [← hraw'] at hsecond
    exact hfirst.unique hsecond

/-- A path with an equals sign of its own and blanks around it gets a value with brackets and
equals signs. -/
theorem splitAssignment_of_parse_joined :
    let path := " t1[id = t1_id].title "
    let raw := path ++ "=" ++ "'[a=b'"
    ColumnPath.parse path =
        .ok (.joined "t1" (some "id") (.column "t1_id") (.column "title")) ∧
      splitAssignment raw = .ok ("t1[id = t1_id].title", .text "[a=b") ∧
      ∀ before after q, raw.toList = before ++ '=' :: after →
        ColumnPath.parse (String.ofList before) = .ok q → before = path.toList ∧
          splitAssignment raw =
            .ok (String.ofList (Text.trim before), Value.ofTyped (String.ofList after)) := by
  intro path raw
  have hp : ColumnPath.parse path =
      .ok (.joined "t1" (some "id") (.column "t1_id") (.column "title")) := by decide +kernel
  have hraw : raw.toList = path.toList ++ '=' :: "'[a=b'".toList := by decide +kernel
  obtain ⟨hassigned, hunique, hsplit⟩ := splitAssignment_of_parse
  refine ⟨hp, ?_, fun before after q hq hparsed => ⟨?_, hsplit raw before after q hq hparsed⟩⟩
  · rw [(hassigned path "'[a=b'" _ hp).1]
    decide +kernel
  · exact (hunique raw before after _ _ q _ hq hparsed hraw (by rwa [String.ofList_toList])).1

end CommandLine
end RecordGraph
