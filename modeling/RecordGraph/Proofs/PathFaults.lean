import RecordGraph.Proofs.PathReading
import RecordGraph.Proofs.PathScan

/-!
# What an error points at

The readers follow the scan of the tokens. What they read the scan takes, and where they
find a fault, the scan refuses the token there, or the text ends too early. So what stands
before the place of an error can be completed to a path, and the character at that place
spoils it for good.
-/
namespace RecordGraph

namespace Path

/-! ## Following the scan -/

/-- Why the scan of `ts` from `s` comes to no good end: a token that cannot follow, the end of
the text in a state of `pending`, or an open bracket there. -/
inductive Halts (pending : Scan → Prop) (finish : ℕ) (s : Scan) (ts : List Token) (f : Fault) :
    Prop
  | refused {before after : List Token} {t : Token} {s' : Scan}
    (split : ts = before ++ t :: after) (run : s.run before = some s') (step : s'.step t = none)
    (position : f.position = t.position) (fault : f.fault ≠ .unclosedBracket)
  | unfinished {s' : Scan} (run : s.run ts = some s') (last : pending s')
    (position : f.position = finish) (fault : f.fault ≠ .unclosedBracket)
  | unclosed {s' : Scan} {outer : List ℕ} (run : s.run ts = some s')
    (opened : s'.opened = f.position :: outer) (fault : f.fault = .unclosedBracket)

/-- The scan stops at the first token. -/
theorem Halts.refused_head {pending : Scan → Prop} {finish : ℕ} {s : Scan} {t : Token}
    {after : List Token} {f : Fault} (step : s.step t = none) (position : f.position = t.position)
    (fault : f.fault ≠ .unclosedBracket) : Halts pending finish s (t :: after) f :=
  .refused (List.nil_append _).symm rfl step position fault

/-- A reader that leaves the tokens of `result` follows the scan of `ts` from `s`: `complete`
holds of the scan and the tokens that are left, and a fault is one of the scan. -/
def Follows (complete : Scan → List Token → Prop) (pending : Scan → Prop) (finish : ℕ) (s : Scan)
    (ts : List Token) : Except Fault (List Token) → Prop
  | .ok rest => ∃ used s', ts = used ++ rest ∧ s.run used = some s' ∧ complete s' rest
  | .error f => Halts pending finish s ts f

section
variable {complete complete' : Scan → List Token → Prop} {pending pending' : Scan → Prop}
  {finish : ℕ} {s s' : Scan} {used ts : List Token} {f : Fault}
  {result : Except Fault (List Token)} {next : List Token → Except Fault (List Token)}

theorem Halts.mono (h : Halts pending finish s ts f) (hpending : ∀ s', pending s' → pending' s') :
    Halts pending' finish s ts f := by
  cases h with
  | refused split run step position fault => exact .refused split run step position fault
  | unfinished run last position fault => exact .unfinished run (hpending _ last) position fault
  | unclosed run opened fault => exact .unclosed run opened fault

theorem Halts.prepend (h : Halts pending finish s' ts f) (hrun : s.run used = some s') :
    Halts pending finish s (used ++ ts) f := by
  cases h with
  | @refused before after t last split run step position fault =>
    have hsplit : used ++ ts = (used ++ before) ++ t :: after := by rw [split, List.append_assoc]
    exact .refused hsplit ((Scan.run_append_of_eq hrun).trans run) step position fault
  | unfinished run last position fault =>
    exact .unfinished ((Scan.run_append_of_eq hrun).trans run) last position fault
  | unclosed run opened fault =>
    exact .unclosed ((Scan.run_append_of_eq hrun).trans run) opened fault

theorem Follows.prepend (h : Follows complete pending finish s' ts result)
    (hrun : s.run used = some s') : Follows complete pending finish s (used ++ ts) result := by
  cases result with
  | error f => exact Halts.prepend h hrun
  | ok rest =>
    obtain ⟨more, s'', rfl, hmore, hcomplete⟩ := h
    exact ⟨used ++ more, s'', (List.append_assoc ..).symm,
      (Scan.run_append_of_eq hrun).trans hmore, hcomplete⟩

theorem Follows.mono (h : Follows complete pending finish s ts result)
    (hcomplete : ∀ s' rest, complete s' rest → complete' s' rest)
    (hpending : ∀ s', pending s' → pending' s') :
    Follows complete' pending' finish s ts result := by
  cases result with
  | error f => exact Halts.mono h hpending
  | ok rest =>
    obtain ⟨used, s', hused, hrun, hs'⟩ := h
    exact ⟨used, s', hused, hrun, hcomplete s' rest hs'⟩

/-- One reader after the other. -/
theorem Follows.bind (h : Follows complete pending finish s ts result)
    (hpending : ∀ s', pending s' → pending' s')
    (hnext : ∀ s' rest, rest <:+ ts → complete s' rest →
      Follows complete' pending' finish s' rest (next rest)) :
    Follows complete' pending' finish s ts (result.bind next) := by
  cases result with
  | error f => exact Halts.mono h hpending
  | ok rest =>
    obtain ⟨used, s', rfl, hrun, hcomplete⟩ := h
    exact (hnext s' rest ⟨used, rfl⟩ hcomplete).prepend hrun

end

/-! ## What readers leave -/

/-- The tokens that a reader leaves. -/
def remaining {α : Type} {ts : List Token} (result : Except Fault (α × Rest ts)) :
    Except Fault (List Token) := result.map fun r => r.2.1

/-- What goes on behind the foreign key of a join. -/
def remainingClosed (opening : ℕ) (result : Except Fault (List Token)) :
    Except Fault (List Token) :=
  result.bind fun inner => (expectClosing opening inner).map Subtype.val

/-- What goes on behind the bracket of a join. -/
def remainingBehind (finish depth : ℕ) : List Token → Except Fault (List Token)
  | ⟨.dot, _⟩ :: ts => remaining (columnPath finish depth ts)
  | ts => .error ⟨nextPosition finish ts, .expectedColumn⟩

section
variable {finish depth : ℕ} {ts : List Token} {c : Char} {more : List Char} {i j : ℕ}

theorem remaining_nil :
    remaining (columnPath finish depth []) = .error ⟨finish, .expectedName none⟩ := by
  rw [columnPath]
  rfl

theorem remaining_mark {x : Symbol} {d : Char} (hx : x.mark? = some d) :
    remaining (columnPath finish depth (⟨x, i⟩ :: ts)) =
      .error ⟨i, .expectedName (some x.first)⟩ := by
  cases x with
  | name => cases hx
  | dot | opening | closing | equals =>
    rw [columnPath] <;> simp [remaining, Except.map]

theorem remaining_column (hstops : Stops (ts.map Token.symbol)) :
    remaining (columnPath finish depth (⟨.name c more, i⟩ :: ts)) = .ok ts := by
  obtain ⟨hlt, h⟩ := (reads_column hstops).2 ⟨rfl, rfl⟩
  rw [h]
  rfl

theorem remaining_deep (hdepth : maxNesting ≤ depth) :
    remaining (columnPath finish depth (⟨.name c more, i⟩ :: ⟨.opening, j⟩ :: ts)) =
      .error ⟨j, .nestedTooDeeply⟩ := by
  rw [columnPath, if_pos hdepth]
  rfl

theorem remaining_through :
    remaining (columnPath finish depth (⟨.name c more, i⟩ :: ⟨.dot, j⟩ :: ts)) =
      remaining (columnPath finish depth ts) := by
  rw [columnPath]
  cases columnPath finish depth ts <;> rfl

theorem remaining_joined (hdepth : depth < maxNesting) :
    remaining (columnPath finish depth (⟨.name c more, i⟩ :: ⟨.opening, j⟩ :: ts)) =
      (remainingClosed j (remaining (columnPath finish (depth + 1) (splitChild ts).2))).bind
        (remainingBehind finish depth) := by
  rw [columnPath, if_neg (by omega)]
  cases columnPath finish (depth + 1) (splitChild ts).2 with
  | error f => rfl
  | ok r =>
    obtain ⟨fk, inner, hinner⟩ := r
    simp only [remaining, remainingClosed, bind, Except.bind, Except.map]
    cases expectClosing j inner with
    | error f => rfl
    | ok after =>
      obtain ⟨after, hafter⟩ := after
      cases after with
      | nil => rfl
      | cons t after =>
        obtain ⟨x, k⟩ := t
        cases x with
        | dot =>
          simp only [remainingBehind]
          cases columnPath finish depth after <;> rfl
        | name | opening | closing | equals => rfl

theorem remaining_spec_joined :
    remaining (tableSpec finish (⟨.name c more, i⟩ :: ⟨.opening, j⟩ :: ts)) =
      remainingClosed j (remaining (columnPath finish 1 (splitChild ts).2)) := by
  rw [tableSpec]
  cases columnPath finish 1 (splitChild ts).2 with
  | error f => rfl
  | ok r =>
    obtain ⟨fk, inner, hinner⟩ := r
    simp only [remaining, remainingClosed, bind, Except.bind, Except.map]
    cases expectClosing j inner <;> rfl

theorem remaining_spec_plain (hopening : ∀ x ∈ (ts.map Token.symbol).head?, x ≠ .opening) :
    remaining (tableSpec finish (⟨.name c more, i⟩ :: ts)) = .ok ts := by
  obtain ⟨hlt, h⟩ := (reads_spec_plain hopening).2 ⟨rfl, rfl⟩
  rw [h]
  rfl

/-- What goes on behind a table. -/
def remainingTables (finish : ℕ) : List Token → Except Fault (List Token)
  | ⟨.dot, _⟩ :: ts => remaining (tableSpecs finish ts)
  | ts => .ok ts

theorem remaining_specs :
    remaining (tableSpecs finish ts) =
      (remaining (tableSpec finish ts)).bind (remainingTables finish) := by
  rw [tableSpecs]
  cases tableSpec finish ts with
  | error f => rfl
  | ok r =>
    obtain ⟨t, after, hafter⟩ := r
    cases after with
    | nil => rfl
    | cons t after =>
      obtain ⟨x, k⟩ := t
      cases x with
      | dot =>
        simp only [remainingTables, remaining, Except.map, Except.bind, bind]
        cases tableSpecs finish after <;> rfl
      | name | opening | closing | equals => rfl

end

/-! ## Column paths -/

/-- The name at the end of a path was read, and nothing goes on with it. Only a bracket may
follow that closes the one around the path. -/
def AfterName (base : List ℕ) (s : Scan) (rest : List Token) : Prop :=
  ∃ last, s = ⟨base, .named last⟩ ∧ ∀ t ∈ rest.head?, t.symbol ≠ .closing → s.step t = none

/-- A name must come, or a dot behind a join, with at least the brackets of `base` open. -/
def Wanting (base : List ℕ) (s : Scan) : Prop :=
  base <:+ s.opened ∧ ∀ last, s.phase ≠ .named last

section
variable {base : List ℕ} {finish depth opening : ℕ} {first last : Bool} {ts : List Token}

theorem Wanting.outer {s : Scan} (h : Wanting (opening :: base) s) : Wanting base s :=
  ⟨(List.suffix_cons opening base).trans h.1, h.2⟩

/-- The name of the joined column and its equals sign are taken, if they are there. -/
theorem run_splitChild (opened : List ℕ) (ts : List Token) : ∃ used first,
    ts = used ++ (splitChild ts).2 ∧
      (⟨opened, .name true⟩ : Scan).run used = some ⟨opened, .name first⟩ ∧
      (first = true → (splitChild (splitChild ts).2).1 = none) := by
  cases hchild : (splitChild ts).1 with
  | none =>
    have hsame : (splitChild ts).2 = ts := by
      unfold splitChild at hchild ⊢
      split at hchild
      · cases hchild
      · rfl
    exact ⟨[], true, by rw [hsame, List.nil_append], rfl, fun _ => by rw [hsame, hchild]⟩
  | some child =>
    unfold splitChild at hchild ⊢
    split at hchild
    · next c more i j ts => exact ⟨[⟨.name c more, i⟩, ⟨.equals, j⟩], false, rfl, rfl, by simp⟩
    · cases hchild

theorem follows_expectClosing {pending : Scan → Prop} {s : Scan}
    (h : AfterName (opening :: base) s ts) :
    Follows (fun s' _ => s' = ⟨base, .joined⟩) pending finish s ts
      ((expectClosing opening ts).map Subtype.val) := by
  obtain ⟨last, rfl, hstep⟩ := h
  unfold expectClosing
  split
  · next position rest => exact ⟨[⟨.closing, position⟩], _, rfl, by cases last <;> rfl, rfl⟩
  · next t rest hclosing =>
    refine .refused_head (hstep t rfl ?_) rfl (by simp)
    obtain ⟨x, position⟩ := t
    rintro rfl
    exact hclosing position rfl
  · exact .unclosed rfl rfl rfl

/-- The bracket of a join is followed if the foreign key in it is. -/
theorem follows_bracket {c : Char} {more : List Char} {i : ℕ}
    {result : Except Fault (List Token)} (hdepth : base.length < maxNesting)
    (hinner : ∀ first, (first = true → (splitChild (splitChild ts).2).1 = none) →
      Follows (AfterName (opening :: base)) (Wanting (opening :: base)) finish
        ⟨opening :: base, .name first⟩ (splitChild ts).2 result) :
    Follows (fun s' _ => s' = ⟨base, .joined⟩) (Wanting (opening :: base)) finish
      ⟨base, .name first⟩ (⟨.name c more, i⟩ :: ⟨.opening, opening⟩ :: ts)
      (remainingClosed opening result) := by
  obtain ⟨used, first', hused, hrun, hchild⟩ := run_splitChild (opening :: base) ts
  have hopen : (⟨base, .name first⟩ : Scan).run
      (⟨.name c more, i⟩ :: ⟨.opening, opening⟩ :: used) =
        some ⟨opening :: base, .name first'⟩ := by
    rw [Scan.run_cons, Scan.step, Option.bind_some, Scan.run_cons, Scan.step_named_opening,
      if_pos hdepth, Option.bind_some, hrun]
  have hclosed := ((hinner first' hchild).bind (fun _ h => h)
    fun s' inner _ hname => follows_expectClosing hname).prepend hopen
  rwa [List.cons_append, List.cons_append, ← hused] at hclosed

/-- A join goes on with a dot and a path. -/
theorem follows_behind (hpath : ∀ k more, ts = ⟨.dot, k⟩ :: more →
      Follows (AfterName base) (Wanting base) finish ⟨base, .name false⟩ more
        (remaining (columnPath finish depth more))) :
    Follows (AfterName base) (Wanting base) finish ⟨base, .joined⟩ ts
      (remainingBehind finish depth ts) := by
  unfold remainingBehind
  split
  · next k more =>
    have hrun : (⟨base, .joined⟩ : Scan).run [⟨.dot, k⟩] = some ⟨base, .name false⟩ := rfl
    exact (hpath k more rfl).prepend hrun
  · next hdot =>
    cases ts with
    | nil => exact .unfinished rfl ⟨List.suffix_rfl, by simp⟩ rfl (by simp)
    | cons t ts =>
      refine .refused_head (Scan.step_joined_of_ne ?_) rfl (by simp)
      obtain ⟨x, k⟩ := t
      rintro rfl
      exact hdot k ts rfl

/-- A name that nothing goes on with ends a path. -/
theorem afterName_of_stops (hchild : first = true → ∀ t ∈ ts.head?, t.symbol ≠ .equals)
    (hstops : Stops (ts.map Token.symbol)) : AfterName base ⟨base, .named first⟩ ts := by
  refine ⟨first, rfl, ?_⟩
  rintro ⟨x, k⟩ ht hclosing
  obtain ⟨hdot, hopening⟩ := hstops x (by rw [List.head?_map, ht]; rfl)
  cases x with
  | name c more => exact Scan.step_named_name
  | dot => exact absurd rfl hdot
  | opening => exact absurd rfl hopening
  | closing => exact absurd rfl hclosing
  | equals =>
    cases first with
    | true => exact absurd rfl (hchild rfl _ ht)
    | false => rfl

/-- The reader of column paths follows the scan from where a name may come. -/
theorem follows_columnPath (hbase : base.length = depth)
    (hchild : first = true → (splitChild ts).1 = none) :
    Follows (AfterName base) (Wanting base) finish ⟨base, .name first⟩ ts
      (remaining (columnPath finish depth ts)) := by
  induction hlen : ts.length using Nat.strong_induction_on generalizing depth base first ts with
  | _ len ih =>
    subst hlen
    cases ts with
    | nil =>
      rw [remaining_nil]
      exact .unfinished rfl ⟨List.suffix_rfl, by simp⟩ rfl (by simp)
    | cons t ts =>
      obtain ⟨x, i⟩ := t
      cases x with
      | dot | opening | closing | equals =>
        rw [remaining_mark rfl]
        exact .refused_head (Scan.step_name_of_mark rfl) rfl (by simp)
      | name c more =>
        by_cases hstops : Stops (ts.map Token.symbol)
        · rw [remaining_column hstops]
          refine ⟨[⟨.name c more, i⟩], _, rfl, rfl, afterName_of_stops ?_ hstops⟩
          rintro hfirst ⟨x, k⟩ ht rfl
          obtain ⟨after, rfl⟩ := List.head?_eq_some_iff.1 ht
          cases hchild hfirst
        · obtain ⟨⟨x, j⟩, ts, rfl, rfl | rfl⟩ := exists_of_not_stops hstops
          · rw [remaining_through]
            have hrun : (⟨base, .name first⟩ : Scan).run [⟨.name c more, i⟩, ⟨.dot, j⟩] =
                some ⟨base, .name false⟩ := rfl
            exact (ih ts.length (by simp only [List.length_cons]; omega) hbase (by simp)
              rfl).prepend hrun
          · by_cases hdepth : depth < maxNesting
            · have hlength := length_splitChild_le ts
              rw [remaining_joined hdepth]
              refine Follows.bind (follows_bracket (hbase ▸ hdepth) fun first' hfirst' => ?_)
                (fun s' h => h.outer) fun s' after hsuffix hjoined => ?_
              · exact ih (splitChild ts).2.length (by simp only [List.length_cons]; omega)
                  (by simp [hbase]) hfirst' rfl
              · subst hjoined
                refine follows_behind fun k more hafter => ?_
                have hshorter := hsuffix.length_le
                rw [hafter, List.length_cons] at hshorter
                exact ih more.length (by omega) hbase (by simp) rfl
            · rw [remaining_deep (Nat.le_of_not_lt hdepth)]
              refine .refused List.singleton_append.symm rfl ?_ rfl (by simp)
              rw [Scan.step_named_opening, if_neg (hbase ▸ hdepth)]

end

/-! ## Table paths -/

/-- A table was read: its name, or its join. -/
def AfterTable (s : Scan) : Prop := s = ⟨[], .named false⟩ ∨ s = ⟨[], .joined⟩

/-- A table was read, and what follows cannot. -/
def AfterTables (s : Scan) (rest : List Token) : Prop :=
  AfterTable s ∧ ∀ t ∈ rest.head?, s.step t = none

/-- No bracket is open, and no name must come. -/
def IsTablePath (s : Scan) : Prop := s.opened = [] ∧ ∀ first, s.phase ≠ .name first

section
variable {finish : ℕ} {ts : List Token}

theorem Wanting.not_isTablePath {opening : ℕ} {s : Scan} (h : Wanting [opening] s) :
    ¬ IsTablePath s := by
  rintro ⟨hnil, -⟩
  have hsuffix := h.1
  rw [hnil] at hsuffix
  cases List.suffix_nil.1 hsuffix

theorem AfterTable.isTablePath {s : Scan} (h : AfterTable s) : IsTablePath s := by
  rcases h with rfl | rfl <;> exact ⟨rfl, by simp⟩

/-- A table is read up to a token that only a dot can be. -/
theorem follows_tableSpec :
    Follows (fun s rest => AfterTable s ∧ ∀ t ∈ rest.head?, t.symbol ≠ .dot → s.step t = none)
      (¬ IsTablePath ·) finish Scan.start ts (remaining (tableSpec finish ts)) := by
  cases ts with
  | nil => exact .unfinished rfl (fun h => h.2 false rfl) rfl (by simp)
  | cons t ts =>
    obtain ⟨x, i⟩ := t
    cases x with
    | dot | opening | closing | equals =>
      exact .refused_head (Scan.step_name_of_mark rfl) rfl (by simp)
    | name c more =>
      by_cases hopening : ∀ x ∈ (ts.map Token.symbol).head?, x ≠ .opening
      · rw [remaining_spec_plain hopening]
        refine ⟨[⟨.name c more, i⟩], _, rfl, rfl, .inl rfl, ?_⟩
        rintro ⟨x, k⟩ ht hdot
        cases x with
        | name c more => exact Scan.step_named_name
        | dot => exact absurd rfl hdot
        | opening => exact absurd rfl (hopening .opening (by rw [List.head?_map, ht]; rfl))
        | closing | equals => rfl
      · obtain ⟨j, ts, rfl⟩ := exists_of_not_opening hopening
        rw [remaining_spec_joined]
        refine (follows_bracket (by decide) fun first hfirst =>
          follows_columnPath rfl hfirst).mono ?_ fun s h => h.not_isTablePath
        rintro s rest rfl
        exact ⟨.inr rfl, fun t _ hdot => Scan.step_joined_of_ne hdot⟩

/-- The reader of table paths follows the scan. -/
theorem follows_tableSpecs :
    Follows AfterTables (¬ IsTablePath ·) finish Scan.start ts
      (remaining (tableSpecs finish ts)) := by
  induction hlen : ts.length using Nat.strong_induction_on generalizing ts with
  | _ len ih =>
    subst hlen
    rw [remaining_specs]
    refine follows_tableSpec.bind (fun _ h => h) ?_
    rintro s rest hsuffix ⟨hs, hstep⟩
    unfold remainingTables
    split
    · next k more =>
      have hshorter := hsuffix.length_le
      rw [List.length_cons] at hshorter
      have hdot : s.run [⟨.dot, k⟩] = some Scan.start := by rcases hs with rfl | rfl <;> rfl
      exact (ih more.length (by omega) rfl).prepend hdot
    · next hdot =>
      refine ⟨[], s, rfl, rfl, hs, ?_⟩
      rintro ⟨x, k⟩ ht
      refine hstep _ ht ?_
      rintro rfl
      obtain ⟨after, rfl⟩ := List.head?_eq_some_iff.1 ht
      exact hdot k after rfl

end

/-! ## Whole texts -/

/-- A reader of texts accepts those that the scan takes to a state of `complete`, and its errors
are faults of the scan. -/
structure Recognizes {α : Type} (complete : Scan → Prop) (parse : String → Except PathError α) :
    Prop where
  closed : ∀ {s}, complete s → s.opened = []
  named : ∀ last, complete ⟨[], .named last⟩
  ok : ∀ {text a}, parse text = .ok a →
    ∃ s, Scan.start.run (tokens 0 text.toList) = some s ∧ complete s
  error : ∀ {text e}, parse text = .error e → e.path = text ∧
    Halts (¬ complete ·) text.toList.length Scan.start (tokens 0 text.toList) ⟨e.position, e.fault⟩

theorem exists_of_expectEnd_eq_error {ts : List Token} {f : Fault} (h : expectEnd ts = .error f) :
    ∃ t after, ts = t :: after ∧ f.position = t.position ∧ f.fault ≠ .unclosedBracket := by
  unfold expectEnd at h
  split at h
  · cases h
  · cases h
    exact ⟨_, _, rfl, rfl, by simp⟩
  · cases h
    exact ⟨_, _, rfl, rfl, by simp⟩

/-- A reader that follows the scan and leaves what cannot follow recognizes. -/
theorem recognizes_readAll {α : Type} {complete pending : Scan → Prop}
    {after : Scan → List Token → Prop}
    {reader : ℕ → (ts : List Token) → Except Fault (α × Rest ts)}
    (hfollows : ∀ finish ts, Follows after pending finish Scan.start ts
      (remaining (reader finish ts)))
    (hafter : ∀ s rest, after s rest → complete s ∧ ∀ t ∈ rest.head?, s.step t = none)
    (hpending : ∀ s, pending s → ¬ complete s) (hclosed : ∀ {s}, complete s → s.opened = [])
    (hnamed : ∀ last, complete ⟨[], .named last⟩) : Recognizes complete (readAll reader) := by
  refine ⟨hclosed, hnamed, fun {text a} h => ?_, fun {text e} h => ?_⟩
  · obtain ⟨hlt, hread⟩ := readAll_eq_ok.1 h
    have hscan := hfollows text.toList.length (tokens 0 text.toList)
    rw [hread] at hscan
    obtain ⟨used, s, hused, hrun, hs⟩ := hscan
    rw [hused, List.append_nil]
    exact ⟨s, hrun, (hafter s _ hs).1⟩
  · have hscan := hfollows text.toList.length (tokens 0 text.toList)
    unfold readAll at h
    dsimp only at h
    cases hread : reader text.toList.length (tokens 0 text.toList) with
    | error f =>
      rw [hread] at h hscan
      cases h
      exact ⟨rfl, Halts.mono hscan hpending⟩
    | ok result =>
      obtain ⟨a, rest, hlt⟩ := result
      rw [hread] at h hscan
      obtain ⟨used, s, hused, hrun, hs⟩ := hscan
      cases hend : expectEnd rest with
      | ok _ =>
        simp only [bind, Except.bind, hend] at h
        cases h
      | error f =>
        simp only [bind, Except.bind, hend] at h
        cases h
        obtain ⟨t, more, rfl, hposition, hfault⟩ := exists_of_expectEnd_eq_error hend
        exact ⟨rfl, .refused hused hrun ((hafter s _ hs).2 t rfl) hposition hfault⟩

/-- A path was read to its name, outside of brackets. -/
def IsColumnPath (s : Scan) : Prop := ∃ last, s = ⟨[], .named last⟩

theorem recognizes_columnPath : Recognizes IsColumnPath ColumnPath.parse := by
  have hfollows : ∀ finish ts, Follows (AfterName []) (Wanting []) finish Scan.start ts
      (remaining (columnPath finish 0 ts)) := fun _ _ => follows_columnPath rfl (by simp)
  refine recognizes_readAll hfollows ?_ ?_ ?_ fun last => ⟨last, rfl⟩
  · rintro s rest ⟨last, rfl, hstep⟩
    refine ⟨⟨last, rfl⟩, ?_⟩
    rintro ⟨x, k⟩ ht
    by_cases hx : x = .closing
    · subst hx
      cases last <;> rfl
    · exact hstep _ ht hx
  · rintro _ ⟨-, hphase⟩ ⟨last, rfl⟩
    exact hphase last rfl
  · rintro _ ⟨last, rfl⟩
    rfl

theorem recognizes_tablePath : Recognizes IsTablePath TableSpec.parsePath :=
  recognizes_readAll (fun _ _ => follows_tableSpecs) (fun _ _ h => ⟨h.1.isTablePath, h.2⟩)
    (fun _ h => h) (fun h => h.1) fun _ => ⟨rfl, by simp⟩

/-! ## The place of an error -/

/-- Some continuation of the text is accepted. -/
def Viable {α : Type} (parse : String → Except PathError α) (s : List Char) : Prop :=
  ∃ more a, parse (String.ofList (s ++ more)) = .ok a

/-- An error of a text names the text. If it stands at a bracket that is not closed, the whole
text can be completed and this is the innermost bracket that is open at its end. If not, the
text before it can be completed, and the error is at the end or at the first character with
which that is no longer so. -/
structure Pinpoints {α : Type} (parse : String → Except PathError α) (text : String)
    (e : PathError) : Prop where
  path : e.path = text
  position_le : e.position ≤ text.toList.length
  unclosed : e.fault.message = "unclosed '['" →
    Viable parse text.toList ∧ (openingsAfter 0 [] text.toList).head? = some e.position
  refused : e.fault.message ≠ "unclosed '['" →
    Viable parse (text.toList.take e.position) ∧
      (e.position = text.toList.length ∨ ¬ Viable parse (text.toList.take (e.position + 1)))

theorem append_ne_of_not_begins {s₁ s₂ s₃ s : String} (h : ¬ s₁.toList <+: s.toList) :
    s₁ ++ s₂ ++ s₃ ≠ s := by
  rintro rfl
  apply h
  rw [String.toList_append, String.toList_append, List.append_assoc]
  exact List.prefix_append ..

theorem message_eq_unclosed {fault : PathFault} :
    fault.message = "unclosed '['" ↔ fault = .unclosedBracket := by
  constructor
  · intro h
    cases fault with
    | unclosedBracket => rfl
    | expectedName found =>
      cases found with
      | none => exact absurd h (by decide)
      | some c => exact absurd h (append_ne_of_not_begins (by decide))
    | expectedClosing c | unexpected c => exact absurd h (append_ne_of_not_begins (by decide))
    | expectedColumn | unbalancedBracket | nestedTooDeeply => exact absurd h (by decide)
  · rintro rfl
    rfl

section
variable {α : Type} {complete : Scan → Prop} {parse : String → Except PathError α}
  {text : String} {cs : List Char} {s : Scan} {e : PathError}

theorem Recognizes.accepts (h : Recognizes complete parse)
    (hrun : Scan.start.run (tokens 0 text.toList) = some s) (hs : complete s) :
    ∃ a, parse text = .ok a := by
  cases hparse : parse text with
  | ok a => exact ⟨a, rfl⟩
  | error e =>
    obtain ⟨-, hhalts⟩ := h.error hparse
    cases hhalts with
    | refused split run step position fault =>
      rw [split, Scan.run_append_of_eq run, Scan.run_cons, step] at hrun
      cases hrun
    | unfinished run last position fault =>
      rw [hrun] at run
      cases run
      exact absurd hs last
    | unclosed run opened fault =>
      rw [hrun] at run
      cases run
      rw [h.closed hs] at opened
      cases opened

/-- What the scan takes can be completed. -/
theorem Recognizes.viable (h : Recognizes complete parse)
    (hrun : Scan.start.run (tokens 0 cs) = some s) : Viable parse cs := by
  obtain ⟨last, hlast⟩ := s.run_completion (0 + cs.length)
  have hcompleted : Scan.start.run (tokens 0 (String.ofList (cs ++ s.completion)).toList) =
      some ⟨[], .named last⟩ := by
    rw [String.toList_ofList, tokens_append (Scan.ends_completion s), Scan.run_append_of_eq hrun,
      hlast]
  obtain ⟨a, ha⟩ := h.accepts hcompleted (h.named last)
  exact ⟨s.completion, a, ha⟩

/-- What the scan refuses, whatever follows, cannot. -/
theorem Recognizes.not_viable (h : Recognizes complete parse)
    (hrun : ∀ more, Scan.start.run (tokens 0 (cs ++ more)) = none) : ¬ Viable parse cs := by
  rintro ⟨more, a, ha⟩
  obtain ⟨s, hs, -⟩ := h.ok ha
  rw [String.toList_ofList, hrun more] at hs
  cases hs

theorem Recognizes.pinpoints (h : Recognizes complete parse) (he : parse text = .error e) :
    Pinpoints parse text e := by
  obtain ⟨hpath, hhalts⟩ := h.error he
  cases hhalts with
  | @refused before after t s split run step position fault =>
    obtain ⟨s₁, c, s₂, hs, hposition, hbefore, hkind⟩ := exists_of_tokens_eq split
    have hk : e.position = s₁.length := by
      change e.position = t.position at position
      rw [position, hposition, Nat.zero_add]
    refine ⟨hpath, ?_, fun hmessage => absurd (message_eq_unclosed.1 hmessage) fault,
      fun _ => ⟨?_, .inr ?_⟩⟩
    · rw [hk, hs, List.length_append]
      omega
    · rw [hk, hs, List.take_left]
      exact h.viable (hbefore ▸ run)
    · have htake : text.toList.take (e.position + 1) = s₁ ++ [c] := by
        rw [hk, hs, List.append_cons, ← List.length_singleton (a := c), ← List.length_append,
          List.take_left]
      rw [htake]
      refine h.not_viable fun more => ?_
      obtain ⟨x, rest, htokens, hx⟩ := hkind more
      rw [List.append_assoc, List.singleton_append, htokens, Scan.run_append_of_eq run,
        Scan.run_cons, Scan.step_eq_none_of_mark?_eq step hx, Option.bind_none]
  | unfinished run last position fault =>
    change e.position = text.toList.length at position
    refine ⟨hpath, position.le, fun hmessage => absurd (message_eq_unclosed.1 hmessage) fault,
      fun _ => ⟨?_, .inl position⟩⟩
    rw [position, List.take_length]
    exact h.viable run
  | @unclosed s outer run opened fault =>
    have hopen : openingsAfter 0 [] text.toList = e.position :: outer := by
      rw [← foldl_openings_tokens, ← opened, Scan.opened_run run]
      rfl
    have hmem : e.position ∈ openingsAfter 0 [] text.toList := by simp [hopen]
    have hlt : e.position < text.toList.length := by simpa using lt_of_mem_openingsAfter hmem
    refine ⟨hpath, hlt.le, fun _ => ⟨h.viable run, by rw [hopen]; rfl⟩, fun hmessage => ?_⟩
    exact absurd (message_eq_unclosed.2 fault) hmessage

end

/-- The errors of both readers point at the first character that spoils the text. -/
theorem pinpoints_of_parse_eq_error :
    (∀ text e, ColumnPath.parse text = .error e → Pinpoints ColumnPath.parse text e) ∧
      ∀ text e, TableSpec.parsePath text = .error e → Pinpoints TableSpec.parsePath text e :=
  ⟨fun _ _ he => recognizes_columnPath.pinpoints he,
    fun _ _ he => recognizes_tablePath.pinpoints he⟩

/-- The outer bracket stays open behind an inner one, and an equals sign stands where the name
of the joined column would have to. -/
theorem pinpoints_of_outer_bracket_and_equals :
    (ColumnPath.parse "a[b[c].d" = .error ⟨"a[b[c].d", 1, .unclosedBracket⟩ ∧
      Viable ColumnPath.parse "a[b[c].d".toList ∧
      (openingsAfter 0 [] "a[b[c].d".toList).head? = some 1) ∧
    TableSpec.parsePath "t[ = x]" = .error ⟨"t[ = x]", 3, .expectedName (some '=')⟩ ∧
      Viable TableSpec.parsePath "t[ ".toList ∧ ¬ Viable TableSpec.parsePath "t[ =".toList := by
  have hcolumn : ColumnPath.parse "a[b[c].d" = .error ⟨"a[b[c].d", 1, .unclosedBracket⟩ := by
    decide +kernel
  have htable : TableSpec.parsePath "t[ = x]" =
      .error ⟨"t[ = x]", 3, .expectedName (some '=')⟩ := by decide +kernel
  have hbracket := pinpoints_of_parse_eq_error.1 _ _ hcolumn
  have hequals := (pinpoints_of_parse_eq_error.2 _ _ htable).refused (by decide)
  exact ⟨⟨hcolumn, hbracket.unclosed rfl⟩, htable, hequals.1, hequals.2.resolve_left (by decide)⟩

end Path
end RecordGraph
