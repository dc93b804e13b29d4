import RecordGraph.CommandLine.Assignment
import RecordGraph.Path.Parser

/-!
# Splitting assignments

An argument is split at the first of its equals signs before which all brackets are closed. It
is no assignment if there is none, or nothing but blanks before it.
-/
namespace RecordGraph.CommandLine

/-- The open brackets after a character; a closing bracket too many does not count. -/
def nest (depth : Nat) (c : Char) : Nat :=
  if c = '[' then depth + 1 else if c = ']' then depth - 1 else depth

/-- The open brackets after a text. -/
def openBrackets (depth : Nat) (s : List Char) : Nat := s.foldl nest depth

/-- The text is split at its first equals sign outside brackets. -/
structure SplitsAtEquals (depth : Nat) (s before after : List Char) : Prop where
  split : s = before ++ '=' :: after
  outside : openBrackets depth before = 0
  first : ∀ l r, before = l ++ '=' :: r → openBrackets depth l ≠ 0

variable {depth : Nat} {c : Char} {s before after : List Char}

theorem splitAtEquals_equals : splitAtEquals 0 ('=' :: s) = some ([], s) := by
  rw [splitAtEquals, if_pos ⟨rfl, rfl⟩]

theorem splitAtEquals_cons (h : ¬ (c = '=' ∧ depth = 0)) : splitAtEquals depth (c :: s) =
    (splitAtEquals (nest depth c) s).map fun (before, after) => (c :: before, after) := by
  rw [splitAtEquals, if_neg h]
  rfl

theorem splitsAtEquals_equals :
    SplitsAtEquals 0 ('=' :: s) before after ↔ before = [] ∧ after = s := by
  constructor
  · rintro ⟨hsplit, -, hfirst⟩
    cases before with
    | nil => exact ⟨rfl, (List.cons.inj hsplit).2.symm⟩
    | cons d before =>
      obtain ⟨rfl, -⟩ := List.cons.inj hsplit
      exact absurd rfl (hfirst [] before rfl)
  · rintro ⟨rfl, rfl⟩
    exact ⟨rfl, rfl, fun l r h => by simp at h⟩

theorem splitsAtEquals_cons (h : ¬ (c = '=' ∧ depth = 0)) :
    SplitsAtEquals depth (c :: s) before after ↔
      ∃ rest, before = c :: rest ∧ SplitsAtEquals (nest depth c) s rest after := by
  constructor
  · rintro ⟨hsplit, houtside, hfirst⟩
    cases before with
    | nil => exact absurd ⟨(List.cons.inj hsplit).1, houtside⟩ h
    | cons d rest =>
      obtain ⟨rfl, hs⟩ := List.cons.inj hsplit
      refine ⟨rest, rfl, hs, houtside, fun l r hl => ?_⟩
      exact hfirst (c :: l) r (by rw [hl, List.cons_append])
  · rintro ⟨rest, rfl, hsplit, houtside, hfirst⟩
    refine ⟨by rw [hsplit, List.cons_append], houtside, fun l r hl => ?_⟩
    cases l with
    | nil => exact fun hzero => h ⟨(List.cons.inj hl).1, hzero⟩
    | cons d l =>
      obtain ⟨rfl, hrest⟩ := List.cons.inj hl
      exact hfirst l r hrest

/-- The split is found, and nothing else. -/
theorem splitAtEquals_eq_some :
    splitAtEquals depth s = some (before, after) ↔ SplitsAtEquals depth s before after := by
  induction s generalizing depth before with
  | nil =>
    constructor
    · intro h
      cases h
    · rintro ⟨hsplit, -, -⟩
      simp at hsplit
  | cons c s ih =>
    by_cases h : c = '=' ∧ depth = 0
    · obtain ⟨rfl, rfl⟩ := h
      rw [splitAtEquals_equals, splitsAtEquals_equals]
      simp [eq_comm]
    · rw [splitAtEquals_cons h, splitsAtEquals_cons h, Option.map_eq_some_iff]
      constructor
      · rintro ⟨⟨rest, after⟩, hrest, heq⟩
        obtain ⟨rfl, rfl⟩ := Prod.mk.inj heq
        exact ⟨rest, rfl, ih.1 hrest⟩
      · rintro ⟨rest, rfl, hrest⟩
        exact ⟨(rest, after), ih.2 hrest, rfl⟩

/-- No split is found only where every equals sign stands in brackets. -/
theorem splitAtEquals_eq_none : splitAtEquals depth s = none ↔
    ∀ before after, s = before ++ '=' :: after → openBrackets depth before ≠ 0 := by
  induction s generalizing depth with
  | nil => simp [splitAtEquals]
  | cons c s ih =>
    by_cases h : c = '=' ∧ depth = 0
    · obtain ⟨rfl, rfl⟩ := h
      rw [splitAtEquals_equals]
      constructor
      · intro hnone
        cases hnone
      · exact fun hall => absurd rfl (hall [] s rfl)
    · rw [splitAtEquals_cons h, Option.map_eq_none_iff, ih]
      constructor
      · intro hall before after hsplit
        cases before with
        | nil => exact fun hzero => h ⟨(List.cons.inj hsplit).1, hzero⟩
        | cons d before =>
          obtain ⟨rfl, hs⟩ := List.cons.inj hsplit
          exact hall before after hs
      · intro hall before after hsplit
        exact hall (c :: before) after (by rw [hsplit, List.cons_append])

/-- An argument that assigns nothing: it has no equals sign outside brackets, no path before it,
or what stands there is no path. -/
inductive Misassigns (raw : String) : Prop
  | noEquals (h : ∀ before after, raw.toList = before ++ '=' :: after →
      openBrackets 0 before ≠ 0)
  | noPath {before after : List Char} (h : SplitsAtEquals 0 raw.toList before after)
      (hblank : Text.trim before = [])
  | badPath {before after : List Char} {e : PathError}
      (h : SplitsAtEquals 0 raw.toList before after)
      (hpath : ColumnPath.parse (String.ofList (Text.trim before)) = .error e)

theorem splitAssignment_of_split {raw : String} (h : SplitsAtEquals 0 raw.toList before after) :
    splitAssignment raw = if Text.trim before = [] then .error (.missingPath raw) else
      .ok (String.ofList (Text.trim before), Value.ofTyped (String.ofList after)) := by
  rw [splitAssignment, splitAtEquals_eq_some.2 h]

/-- Such an argument is no assignment, or one to a text that is no path. -/
theorem Misassigns.splitAssignment {raw : String} (h : Misassigns raw) :
    (∃ e, splitAssignment raw = .error e) ∨
      ∃ path v e, splitAssignment raw = .ok (path, v) ∧ ColumnPath.parse path = .error e := by
  cases h with
  | noEquals h =>
    refine .inl ⟨.missingEquals raw, ?_⟩
    rw [CommandLine.splitAssignment, splitAtEquals_eq_none.2 h]
  | noPath h hblank => exact .inl ⟨_, (splitAssignment_of_split h).trans (if_pos hblank)⟩
  | badPath h hpath =>
    have hsplit := splitAssignment_of_split h
    split at hsplit
    · exact .inl ⟨_, hsplit⟩
    · exact .inr ⟨_, _, _, hsplit, hpath⟩

end RecordGraph.CommandLine
