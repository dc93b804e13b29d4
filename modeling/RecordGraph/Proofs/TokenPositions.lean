import RecordGraph.Proofs.PathSymbols

/-!
# Where tokens stand

A text that does not go on with a name has its own tokens, whatever follows it. So
the tokens before a given one are those of the text before its first character, and
whatever follows this character, a token of the same kind stands there.
-/
namespace RecordGraph.Path

/-- The character of a mark; names have none. -/
def Symbol.mark? : Symbol → Option Char
  | name _ _ => none
  | dot => some '.'
  | opening => some '['
  | closing => some ']'
  | equals => some '='

section
variable {s r : List Char} {i : ℕ}

/-! ## Texts in a row -/

theorem takeWhile_append_of_ends (hr : Ends r) :
    (s ++ r).takeWhile isNameChar = s.takeWhile isNameChar := by
  induction s with
  | nil =>
    cases r with
    | nil => rfl
    | cons c r => simp [hr c (by simp)]
  | cons c s ih => by_cases hc : isNameChar c <;> simp [hc, ih]

theorem dropWhile_append_of_ends (hr : Ends r) :
    (s ++ r).dropWhile isNameChar = s.dropWhile isNameChar ++ r := by
  induction s with
  | nil =>
    cases r with
    | nil => rfl
    | cons c r => simp [hr c (by simp)]
  | cons c s ih => by_cases hc : isNameChar c <;> simp [hc, ih]

theorem ends_dropWhile (s : List Char) : Ends (s.dropWhile isNameChar) := by
  intro c hc
  have hhead := List.head?_dropWhile_not isNameChar s
  rw [Option.mem_def.1 hc] at hhead
  exact hhead

/-- The tokens of two texts in a row, if no name goes on from the first into the second. -/
theorem tokens_append (hr : Ends r) :
    tokens i (s ++ r) = tokens i s ++ tokens (i + s.length) r := by
  induction i, s using tokens.induct with
  | case1 i => simp [tokens]
  | case2 i c s hblank ih =>
    rw [List.cons_append, tokens, if_pos hblank, tokens, if_pos hblank, ih, List.length_cons,
      Nat.add_assoc, Nat.add_comm 1]
  | case3 i c s hblank hmark ih =>
    rw [List.cons_append, tokens, if_neg hblank, if_pos hmark, tokens, if_neg hblank, if_pos hmark,
      ih, List.cons_append, List.length_cons, Nat.add_assoc, Nat.add_comm 1]
  | case4 i c s hblank hmark ih =>
    have hlength : i + 1 + (s.takeWhile isNameChar).length + (s.dropWhile isNameChar).length =
        i + (c :: s).length := by
      have hsplit := congrArg List.length
        (List.takeWhile_append_dropWhile (p := isNameChar) (l := s))
      simp only [List.length_append] at hsplit
      simp only [List.length_cons]
      omega
    rw [List.cons_append, tokens, if_neg hblank, if_neg hmark, takeWhile_append_of_ends hr,
      dropWhile_append_of_ends hr, ih, hlength, tokens, if_neg hblank, if_neg hmark,
      List.cons_append]

theorem symbols_append (hr : Ends r) : symbols (s ++ r) = symbols s ++ symbols r := by
  rw [symbols, tokens_append hr, List.map_append, map_symbol_tokens, map_symbol_tokens]

theorem tokens_name {c : Char} (hc : isNameChar c = true) : tokens i (c :: s) =
    ⟨.name c (s.takeWhile isNameChar), i⟩ ::
      tokens (i + 1 + (s.takeWhile isNameChar).length) (s.dropWhile isNameChar) := by
  have hchar := hc
  simp only [isNameChar, Bool.and_eq_true, Bool.not_eq_true'] at hchar
  rw [tokens, if_neg (by simp [hchar.1]), if_neg (by simp [hchar.2])]

/-! ## Before a token -/

/-- A token of a text is told by its first character: what stands before it and what kind of
token it is do not depend on what follows that character. -/
theorem exists_of_tokens_eq {before after : List Token} {t : Token}
    (h : tokens i s = before ++ t :: after) :
    ∃ s₁ c s₂, s = s₁ ++ c :: s₂ ∧ t.position = i + s₁.length ∧ tokens i s₁ = before ∧
      ∀ r, ∃ x rest, tokens i (s₁ ++ c :: r) = before ++ ⟨x, t.position⟩ :: rest ∧
        x.mark? = t.symbol.mark? := by
  induction i, s using tokens.induct generalizing before with
  | case1 i => simp [tokens] at h
  | case2 i c s hblank ih =>
    rw [tokens, if_pos hblank] at h
    obtain ⟨s₁, d, s₂, rfl, hposition, hbefore, hkind⟩ := ih h
    refine ⟨c :: s₁, d, s₂, rfl, by rw [hposition, List.length_cons]; omega, ?_, fun r => ?_⟩
    · rw [tokens, if_pos hblank, hbefore]
    · rw [List.cons_append, tokens, if_pos hblank]
      exact hkind r
  | case3 i c s hblank hmark ih =>
    rw [tokens, if_neg hblank, if_pos hmark] at h
    cases before with
    | nil =>
      obtain ⟨rfl, -⟩ := List.cons.inj h
      refine ⟨[], c, s, rfl, by simp, by simp [tokens], fun r => ⟨.ofMark c, tokens (i + 1) r, ?_,
        rfl⟩⟩
      rw [List.nil_append, tokens, if_neg hblank, if_pos hmark, List.nil_append]
    | cons a before =>
      obtain ⟨rfl, hrest⟩ := List.cons.inj h
      obtain ⟨s₁, d, s₂, rfl, hposition, hbefore, hkind⟩ := ih hrest
      refine ⟨c :: s₁, d, s₂, rfl, by rw [hposition, List.length_cons]; omega, ?_, fun r => ?_⟩
      · rw [tokens, if_neg hblank, if_pos hmark, hbefore]
      · obtain ⟨x, rest, htokens, hx⟩ := hkind r
        refine ⟨x, rest, ?_, hx⟩
        rw [List.cons_append, tokens, if_neg hblank, if_pos hmark, htokens, List.cons_append]
  | case4 i c s hblank hmark ih =>
    have hname : isNameChar c = true :=
      ((blank_or_mark_or_name c).resolve_left hblank).resolve_left hmark
    rw [tokens_name hname] at h
    cases before with
    | nil =>
      obtain ⟨rfl, -⟩ := List.cons.inj h
      refine ⟨[], c, s, rfl, by simp, by simp [tokens], fun r => ?_⟩
      exact ⟨.name c (r.takeWhile isNameChar), tokens (i + 1 + (r.takeWhile isNameChar).length)
        (r.dropWhile isNameChar), tokens_name hname, rfl⟩
    | cons a before =>
      obtain ⟨rfl, hrest⟩ := List.cons.inj h
      obtain ⟨s₁, d, s₂, hs, hposition, hbefore, hkind⟩ := ih hrest
      -- the name ends where the rest of the text begins, so it has no other characters
      have hends (q : List Char) : Ends (s₁ ++ d :: q) := by
        have hdrop := ends_dropWhile s
        rw [hs] at hdrop
        cases s₁ <;> simpa [Ends] using hdrop
      have htake (q : List Char) (hq : Ends q) :
          tokens i ((c :: s.takeWhile isNameChar) ++ q) =
            ⟨.name c (s.takeWhile isNameChar), i⟩ ::
              tokens (i + 1 + (s.takeWhile isNameChar).length) q := by
        have hall : ∀ d ∈ s.takeWhile isNameChar, isNameChar d = true :=
          fun d hd => List.mem_takeWhile_imp hd
        rw [tokens_append hq, tokens_name hname, List.takeWhile_eq_self_iff.2 hall,
          List.dropWhile_eq_nil_iff.2 hall, tokens, List.length_cons, List.singleton_append]
        congr 2
        omega
      have hends₁ : Ends s₁ := by
        cases s₁ with
        | nil => simp [Ends]
        | cons d' s₁ => simpa [Ends] using hends []
      refine ⟨c :: s.takeWhile isNameChar ++ s₁, d, s₂, ?_, ?_, ?_, fun r => ?_⟩
      · rw [List.append_assoc, ← hs, List.cons_append, List.takeWhile_append_dropWhile]
      · rw [hposition]
        simp only [List.length_append, List.length_cons]
        omega
      · rw [htake s₁ hends₁, hbefore]
      · obtain ⟨x, rest, htokens, hx⟩ := hkind r
        refine ⟨x, rest, ?_, hx⟩
        rw [List.append_assoc, htake _ (hends r), htokens, List.cons_append]

/-! ## Open brackets -/

/-- The positions of the brackets that are open after a text, the innermost first, if those of
`opened` are open before it. -/
def openingsAfter (i : ℕ) (opened : List ℕ) : List Char → List ℕ
  | [] => opened
  | c :: s =>
    openingsAfter (i + 1)
      (if c = '[' then i :: opened else if c = ']' then opened.tail else opened) s

/-- The positions of the brackets that are open after a token. -/
def Token.openings (opened : List ℕ) (t : Token) : List ℕ :=
  match t.symbol with
  | .opening => t.position :: opened
  | .closing => opened.tail
  | _ => opened

theorem openingsAfter_cons_of_not_bracket {c : Char} {opened : List ℕ} (hopen : c ≠ '[')
    (hclose : c ≠ ']') : openingsAfter i opened (c :: s) = openingsAfter (i + 1) opened s := by
  rw [openingsAfter, if_neg hopen, if_neg hclose]

theorem not_bracket_of_isMark_eq_false {c : Char} (h : isMark c = false) : c ≠ '[' ∧ c ≠ ']' := by
  constructor <;> rintro rfl <;> cases h

theorem openingsAfter_append_name {name : List Char} {opened : List ℕ}
    (hname : ∀ c ∈ name, isNameChar c = true) :
    openingsAfter i opened (name ++ s) = openingsAfter (i + name.length) opened s := by
  induction name generalizing i with
  | nil => rfl
  | cons c name ih =>
    obtain ⟨hc, hrest⟩ := List.forall_mem_cons.1 hname
    have hmark : isMark c = false := by
      by_contra h
      rw [isNameChar_of_isMark (by simpa using h)] at hc
      cases hc
    obtain ⟨hopen, hclose⟩ := not_bracket_of_isMark_eq_false hmark
    rw [List.cons_append, openingsAfter_cons_of_not_bracket hopen hclose, ih hrest,
      List.length_cons, Nat.add_assoc, Nat.add_comm 1]

/-- The open brackets of a text are those of its tokens. -/
theorem foldl_openings_tokens (i : ℕ) (s : List Char) (opened : List ℕ) :
    (tokens i s).foldl Token.openings opened = openingsAfter i opened s := by
  induction i, s using tokens.induct generalizing opened with
  | case1 i => simp [tokens, openingsAfter]
  | case2 i c s hblank ih =>
    have hmark : isMark c = false := by
      by_contra h
      rw [not_isBlank_of_isMark (by simpa using h)] at hblank
      cases hblank
    obtain ⟨hopen, hclose⟩ := not_bracket_of_isMark_eq_false hmark
    rw [tokens, if_pos hblank, ih, openingsAfter_cons_of_not_bracket hopen hclose]
  | case3 i c s hblank hmark ih =>
    rw [tokens, if_neg hblank, if_pos hmark, List.foldl_cons, ih, openingsAfter]
    congr 1
    simp only [isMark, Bool.or_eq_true, beq_iff_eq] at hmark
    rcases hmark with ((rfl | rfl) | rfl) | rfl <;> simp [Symbol.ofMark, Token.openings]
  | case4 i c s hblank hmark ih =>
    obtain ⟨hopen, hclose⟩ := not_bracket_of_isMark_eq_false (by simpa using hmark)
    have hname : isNameChar c = true :=
      ((blank_or_mark_or_name c).resolve_left hblank).resolve_left hmark
    have hall : ∀ d ∈ s.takeWhile isNameChar, isNameChar d = true :=
      fun d hd => List.mem_takeWhile_imp hd
    have hskip : openingsAfter (i + 1) opened (s.takeWhile isNameChar ++ s.dropWhile isNameChar) =
        openingsAfter (i + 1 + (s.takeWhile isNameChar).length) opened (s.dropWhile isNameChar) :=
      openingsAfter_append_name hall
    rw [List.takeWhile_append_dropWhile] at hskip
    rw [tokens_name hname, List.foldl_cons, ih, openingsAfter_cons_of_not_bracket hopen hclose,
      hskip]
    rfl

theorem lt_of_mem_openingsAfter {opened : List ℕ} {k : ℕ} (h : k ∈ openingsAfter i opened s) :
    k ∈ opened ∨ k < i + s.length := by
  induction s generalizing i opened with
  | nil => exact .inl h
  | cons c s ih =>
    rw [List.length_cons]
    rw [openingsAfter] at h
    rcases ih h with hmem | hlt
    · split at hmem
      · rcases List.mem_cons.1 hmem with rfl | hmem
        · exact .inr (by omega)
        · exact .inl hmem
      · split at hmem
        · exact .inl (List.mem_of_mem_tail hmem)
        · exact .inl hmem
    · exact .inr (by omega)

end
end RecordGraph.Path
