import RecordGraph.Path.Parser
import RecordGraph.Proofs.TokenPositions

/-!
# Scanning paths

A text is scanned token by token with a memory of two things: which brackets are open,
and what may come next. What is refused is refused whatever follows it, and what was not
refused so far can be completed to a path.
-/
namespace RecordGraph.Path

/-- What may come next: a name, or what goes on behind a name or behind a join. The first name
in a bracket may be that of the joined column. -/
inductive Phase where
  | name (first : Bool)
  | named (first : Bool)
  | joined
  deriving DecidableEq

/-- The positions of the open brackets, the innermost first, and what may come next. -/
structure Scan where
  opened : List ℕ
  phase : Phase
  deriving DecidableEq

namespace Scan

def start : Scan := ⟨[], .name false⟩

/-- One token more, unless it cannot follow. -/
def step (s : Scan) (t : Token) : Option Scan :=
  match s.phase, t.symbol with
  | .name first, .name _ _ => some ⟨s.opened, .named first⟩
  | .named _, .dot => some ⟨s.opened, .name false⟩
  | .joined, .dot => some ⟨s.opened, .name false⟩
  | .named true, .equals => some ⟨s.opened, .name false⟩
  | .named _, .opening =>
    if s.opened.length < maxNesting then some ⟨t.position :: s.opened, .name true⟩ else none
  | .named _, .closing => if s.opened = [] then none else some ⟨s.opened.tail, .joined⟩
  | _, _ => none

/-- Some tokens, one after the other. -/
def run (s : Scan) (ts : List Token) : Option Scan := ts.foldlM step s

variable {s s' : Scan} {t : Token} {ts us : List Token} {opened : List ℕ} {first : Bool}

@[simp] theorem run_nil : s.run [] = some s := rfl

@[simp] theorem run_cons : s.run (t :: ts) = (s.step t).bind (run · ts) := List.foldlM_cons

theorem run_append : s.run (ts ++ us) = (s.run ts).bind (run · us) := List.foldlM_append

theorem run_append_of_eq (h : s.run ts = some s') : s.run (ts ++ us) = s'.run us := by
  rw [run_append, h, Option.bind_some]

/-! ## Steps -/

theorem step_name_of_mark {c : Char} (h : t.symbol.mark? = some c) :
    (⟨opened, .name first⟩ : Scan).step t = none := by
  obtain ⟨x, position⟩ := t
  cases x with
  | name => cases h
  | dot | opening | closing | equals => rfl

theorem step_named_name {c : Char} {more : List Char} {position : ℕ} :
    (⟨opened, .named first⟩ : Scan).step ⟨.name c more, position⟩ = none := by
  cases first <;> rfl

theorem step_named_opening {position : ℕ} :
    (⟨opened, .named first⟩ : Scan).step ⟨.opening, position⟩ =
      if opened.length < maxNesting then some ⟨position :: opened, .name true⟩ else none := by
  cases first <;> rfl

theorem step_joined_of_ne (h : t.symbol ≠ .dot) : (⟨opened, .joined⟩ : Scan).step t = none := by
  obtain ⟨x, position⟩ := t
  cases x with
  | dot => exact absurd rfl h
  | name | opening | closing | equals => rfl

/-- All that a scan keeps of the tokens is the open brackets. -/
theorem opened_step (h : s.step t = some s') : s'.opened = t.openings s.opened := by
  obtain ⟨opened, phase⟩ := s
  obtain ⟨x, position⟩ := t
  cases phase with
  | name first =>
    cases x with
    | name =>
      cases h
      rfl
    | dot | opening | closing | equals => cases h
  | named first =>
    cases x with
    | name => rw [step_named_name] at h; cases h
    | dot =>
      cases h
      rfl
    | opening =>
      simp only [step, Option.ite_none_right_eq_some, Option.some.injEq] at h
      rw [← h.2]
      rfl
    | closing =>
      simp only [step, Option.ite_none_left_eq_some, Option.some.injEq] at h
      rw [← h.2]
      rfl
    | equals =>
      cases first <;> cases h
      rfl
  | joined =>
    cases x with
    | dot =>
      cases h
      rfl
    | name | opening | closing | equals => cases h

theorem opened_run (h : s.run ts = some s') : s'.opened = ts.foldl Token.openings s.opened := by
  induction ts generalizing s with
  | nil => rw [← Option.some.inj h]; rfl
  | cons t ts ih =>
    rw [run_cons] at h
    obtain ⟨s₁, hstep, hrest⟩ := Option.bind_eq_some_iff.1 h
    rw [ih hrest, opened_step hstep, List.foldl_cons]

/-- Whether a token can follow depends on its kind only. -/
theorem step_eq_none_of_mark?_eq {x : Symbol} {position : ℕ} (h : s.step t = none)
    (hx : x.mark? = t.symbol.mark?) : s.step ⟨x, position⟩ = none := by
  obtain ⟨opened, phase⟩ := s
  obtain ⟨y, position'⟩ := t
  have hkind : x = y ∨ ∃ c more d others, x = .name c more ∧ y = .name d others := by
    cases x <;> cases y <;> simp_all [Symbol.mark?]
  rcases hkind with rfl | ⟨c, more, d, others, rfl, rfl⟩
  · cases phase with
    | named first => cases first <;> cases x <;> simp_all [step]
    | name | joined => cases x <;> simp_all [step]
  · cases phase <;> simp_all [step]

/-! ## Completions -/

/-- Closes brackets, each with the column behind the join. -/
def closings : ℕ → List Char
  | 0 => []
  | n + 1 => ']' :: '.' :: 'x' :: closings n

/-- What completes the text to a path. -/
def completion (s : Scan) : List Char :=
  match s.phase with
  | .name _ => ' ' :: 'x' :: closings s.opened.length
  | .named _ => ' ' :: closings s.opened.length
  | .joined => ' ' :: '.' :: 'x' :: closings s.opened.length

theorem ends_closings (n : ℕ) : Ends (closings n) := by
  cases n <;> simp [Ends, closings, isNameChar, isMark]

theorem tokens_blank (i : ℕ) (r : List Char) : tokens i (' ' :: r) = tokens (i + 1) r := by
  rw [tokens, if_pos (by decide)]

theorem tokens_dot (i : ℕ) (r : List Char) :
    tokens i ('.' :: r) = ⟨.dot, i⟩ :: tokens (i + 1) r := by
  rw [tokens, if_neg (by decide), if_pos (by decide)]
  rfl

theorem tokens_closing (i : ℕ) (r : List Char) :
    tokens i (']' :: r) = ⟨.closing, i⟩ :: tokens (i + 1) r := by
  rw [tokens, if_neg (by decide), if_pos (by decide)]
  rfl

theorem tokens_x {r : List Char} (hr : Ends r) (i : ℕ) :
    tokens i ('x' :: r) = ⟨.name 'x' [], i⟩ :: tokens (i + 1) r := by
  have hone : tokens i ['x'] = [⟨.name 'x' [], i⟩] := by
    rw [tokens_name (by decide)]
    simp [tokens]
  rw [← List.singleton_append, tokens_append hr, hone]
  rfl

/-- After a name, all open brackets can be closed. -/
theorem run_closings (first : Bool) (i : ℕ) : ∃ last,
    (⟨opened, .named first⟩ : Scan).run (tokens i (closings opened.length)) =
      some ⟨[], .named last⟩ := by
  induction opened generalizing i first with
  | nil => exact ⟨first, by rw [List.length_nil, closings, tokens, run_nil]⟩
  | cons j opened ih =>
    obtain ⟨last, hlast⟩ := ih false (i + 1 + 1 + 1)
    refine ⟨last, ?_⟩
    rw [List.length_cons, closings, tokens_closing, tokens_dot, tokens_x (ends_closings _)]
    cases first <;> exact hlast

theorem ends_completion (s : Scan) : Ends s.completion := by
  obtain ⟨opened, phase⟩ := s
  cases phase <;> simp [Ends, completion, isNameChar, Text.isBlank]

/-- What was scanned so far can be completed. -/
theorem run_completion (s : Scan) (i : ℕ) :
    ∃ last, s.run (tokens i s.completion) = some ⟨[], .named last⟩ := by
  obtain ⟨opened, phase⟩ := s
  cases phase with
  | name first =>
    rw [completion, tokens_blank, tokens_x (ends_closings _)]
    exact run_closings first (i + 1 + 1)
  | named first =>
    rw [completion, tokens_blank]
    exact run_closings first (i + 1)
  | joined =>
    rw [completion, tokens_blank, tokens_dot, tokens_x (ends_closings _)]
    exact run_closings false (i + 1 + 1 + 1)

end Scan
end RecordGraph.Path
