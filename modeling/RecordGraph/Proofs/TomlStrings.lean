import Mathlib.Data.Nat.Basic
import Mathlib.Order.Basic
import Mathlib.Tactic.SplitIfs
import RecordGraph.Toml.Quoted

/-!
# TOML strings that are written are read

Each of the four forms is read back, whatever follows it but a quote.
-/
namespace RecordGraph.Toml

section
variable {c q : Char} {s rest : List Char} {multiline : Bool}

/-! ## Escapes -/

theorem hexValue?_digitChar {n : ℕ} (hn : n < 16) : Text.hexValue? (Nat.digitChar n) = some n := by
  revert n
  decide

theorem hexValue?_toUpper {n : ℕ} (hn : n < 16) :
    Text.hexValue? (Nat.digitChar n).toUpper = some n := by
  revert n
  decide

theorem charOfCode?_toNat (c : Char) : charOfCode? c.toNat = some c := by
  have hvalid : c.toNat.isValidChar := c.valid
  rw [charOfCode?, if_pos hvalid, Char.ofNat_toNat]

theorem toNat_lt_of_isControl (hc : isControl c = true) : c.toNat < 128 := by
  simp only [isControl, Bool.or_eq_true, Bool.and_eq_true, decide_eq_true_eq, beq_iff_eq] at hc
  rcases hc with hc | rfl
  · omega
  · decide

/-- The code of a control character has two digits that may not be zero. -/
theorem readBasic_code (hc : c.toNat < 256) :
    readBasic multiline .text ('\\' :: 'u' :: '0' :: '0' :: Nat.digitChar (c.toNat / 16) ::
      (Nat.digitChar (c.toNat % 16)).toUpper :: rest) =
      cons c (readBasic multiline .text rest) := by
  have hhigh := hexValue?_digitChar (n := c.toNat / 16) (by omega)
  have hlow := hexValue?_toUpper (n := c.toNat % 16) (by omega)
  have hzero : Text.hexValue? '0' = some 0 := by decide
  have hsum : c.toNat / 16 * 16 + c.toNat % 16 = c.toNat := Nat.div_add_mod' ..
  simp [readBasic, hzero, hhigh, hlow, hsum, charOfCode?_toNat]

/-- An escaped character is read in text, on one line and on several. -/
theorem readBasic_escape :
    readBasic multiline .text (escape c ++ rest) = cons c (readBasic multiline .text rest) := by
  unfold escape
  split_ifs with hquote hbackslash hb ht hn hf hr hcontrol
  · simp [hquote, readBasic, unescape?]
  · simp [hbackslash, readBasic, unescape?]
  · simp [hb, readBasic, unescape?]
  · simp [ht, readBasic, unescape?]
  · simp [hn, readBasic, unescape?]
  · simp [hf, readBasic, unescape?]
  · simp [hr, readBasic, unescape?]
  · exact readBasic_code ((toNat_lt_of_isControl hcontrol).trans (by decide))
  · simp [readBasic, hquote, hbackslash, isPlain, hcontrol, hn]

@[simp] theorem cons_some : cons c (some (s, rest)) = some (c :: s, rest) := rfl

/-- An escaped character begins with no quote and with no line end. -/
theorem exists_escape (c : Char) : ∃ d t, escape c = d :: t ∧ d ≠ '"' ∧ d ≠ '\n' ∧ d ≠ '\r' := by
  unfold escape
  split_ifs <;> first
    | exact ⟨_, _, rfl, by decide, by decide, by decide⟩
    | exact ⟨_, _, rfl, ‹_›, ‹_›, ‹_›⟩

/-! ## One line -/

/-- A basic string holds every text. -/
theorem readBasic_flatMap_escape (s rest : List Char) :
    readBasic false .text (s.flatMap escape ++ '"' :: rest) = some (s, rest) := by
  induction s with
  | nil => simp [readBasic]
  | cons c s ih => rw [List.flatMap_cons, List.append_assoc, readBasic_escape, ih, cons_some]

theorem readLiteral_append (hplain : ∀ c ∈ s, isPlain c = true) (hquote : '\'' ∉ s) :
    readLiteral (s ++ '\'' :: rest) = some (s, rest) := by
  induction s with
  | nil => rfl
  | cons c s ih =>
    obtain ⟨hc, hs⟩ := List.forall_mem_cons.1 hplain
    obtain ⟨hne, hnot⟩ := not_or.1 (List.mem_cons.not.1 hquote)
    rw [List.cons_append, readLiteral, if_neg (Ne.symm hne), if_pos hc, ih hs hnot, cons_some]

/-! ## Several lines -/

/-- What may follow a string of several lines: no quote that could belong to it. -/
theorem closeLines_of_head? (hrest : rest.head? ≠ some q) : closeLines q rest = ([], rest) := by
  unfold closeLines
  split <;> simp_all

theorem closeLines_cons (hrest : rest.head? ≠ some q) : closeLines q (q :: rest) = ([q], rest) := by
  cases rest with
  | nil => simp [closeLines]
  | cons d rest => simp_all [closeLines]

theorem closeLines_cons_cons : closeLines q (q :: q :: rest) = ([q, q], rest) := by
  simp [closeLines]

/-- Three quotes aside, each character stands for itself. -/
theorem readLiteralLines_cons (hc : isControl c = false)
    (hclose : ∀ t, c :: s ≠ '\'' :: '\'' :: '\'' :: t) :
    readLiteralLines (c :: s) = cons c (readLiteralLines s) := by
  rw [readLiteralLines.eq_def]
  split
  · next t heq => exact absurd heq (hclose t)
  · next heq =>
    obtain ⟨rfl, -⟩ := List.cons.inj heq
    cases hc
  · next heq =>
    obtain ⟨rfl, rfl⟩ := List.cons.inj heq
    refine if_pos ?_
    by_cases hn : c = '\n' <;> simp [isPlain, hc, hn]
  · next heq => cases heq

theorem readLiteralLines_append (hcontrol : ∀ c ∈ s, isControl c = false)
    (htriple : hasTriple '\'' s = false) (hrest : rest.head? ≠ some '\'') :
    readLiteralLines (s ++ '\'' :: '\'' :: '\'' :: rest) = some (s, rest) := by
  induction s with
  | nil => simp [readLiteralLines, closeLines_of_head? hrest]
  | cons c s ih =>
    obtain ⟨hc, hs⟩ := List.forall_mem_cons.1 hcontrol
    obtain ⟨hthree, hlater⟩ := Bool.or_eq_false_iff.1 htriple
    have hstep (hclose : ∀ t, c :: (s ++ '\'' :: '\'' :: '\'' :: rest) ≠
        '\'' :: '\'' :: '\'' :: t) :
        readLiteralLines (c :: s ++ '\'' :: '\'' :: '\'' :: rest) = some (c :: s, rest) := by
      rw [List.cons_append, readLiteralLines_cons hc hclose, ih hs hlater, cons_some]
    by_cases hquote : c = '\''
    · subst hquote
      -- one or two quotes at the end of the text stand before the closing ones
      match s with
      | [] => simp [readLiteralLines, closeLines_cons hrest]
      | [a] =>
        by_cases ha : a = '\''
        · simp [ha, readLiteralLines, closeLines_cons_cons]
        · exact hstep fun t heq => ha (List.cons.inj (List.cons.inj heq).2).1
      | a :: b :: s =>
        refine hstep fun t heq => ?_
        simp_all
    · exact hstep fun t heq => hquote (List.cons.inj heq).1

/-- Behind two quotes, or where no quote stands, the next character as it is written is none. -/
theorem exists_escapeLines {run : ℕ} (h : c = '"' → run = 2) (s : List Char) :
    ∃ d t, escapeLines run (c :: s) = d :: t ∧ d ≠ '"' := by
  unfold escapeLines
  split_ifs with hquote htwo
  · exact ⟨_, _, rfl, by decide⟩
  · exact absurd (h hquote) htwo
  · exact ⟨_, _, rfl, by decide⟩
  · obtain ⟨d, t, heq, hd, -⟩ := exists_escape c
    exact ⟨d, t ++ escapeLines 0 s, by rw [heq, List.cons_append], hd⟩

/-- A quote that two more do not follow stands for itself. -/
theorem readBasic_quote (htake : s.take 2 ≠ ['"', '"']) :
    readBasic true .text ('"' :: s) = cons '"' (readBasic true .text s) := by
  simp [readBasic, htake]

theorem readBasic_close :
    readBasic true .text ('"' :: '"' :: '"' :: s) = some (closeLines '"' s) := by
  simp [readBasic]

/-- A text of several lines may hold every character. -/
theorem readBasic_escapeLines (s : List Char) {run : ℕ} (hrun : run ≤ 2)
    (hrest : rest.head? ≠ some '"') :
    readBasic true .text (escapeLines run s ++ '"' :: '"' :: '"' :: rest) = some (s, rest) := by
  induction s generalizing run with
  | nil => rw [escapeLines, List.nil_append, readBasic_close, closeLines_of_head? hrest]
  | cons c s ih =>
    unfold escapeLines
    split_ifs with hquote htwo hnewline
    · simp [hquote, readBasic, unescape?, ih (Nat.zero_le 2)]
    · subst hquote
      have hstep (htake : (escapeLines (run + 1) s ++ '"' :: '"' :: '"' :: rest).take 2 ≠
          ['"', '"']) : readBasic true .text ('"' :: escapeLines (run + 1) s ++
            '"' :: '"' :: '"' :: rest) = some ('"' :: s, rest) := by
        rw [List.cons_append, readBasic_quote htake, ih (by omega), cons_some]
      -- one or two quotes at the end of the text stand before the closing ones
      match s with
      | [] => simp [escapeLines, readBasic_close, closeLines_cons hrest]
      | a :: s =>
        by_cases ha : a = '"' → run + 1 = 2
        · obtain ⟨d, t, heq, hd⟩ := exists_escapeLines ha s
          exact hstep (by simp [heq, hd])
        · obtain ⟨rfl, hone⟩ := Classical.not_imp.1 ha
          match s with
          | [] => simp [escapeLines, hone, readBasic_close, closeLines_cons_cons]
          | b :: s =>
            have hthird : b = '"' → run + 2 = 2 := fun _ => by omega
            obtain ⟨d, t, heq, hd⟩ := exists_escapeLines hthird s
            refine hstep ?_
            rw [escapeLines, if_pos rfl, if_neg hone, heq]
            simp [hd]
    · simp [hnewline, readBasic, isPlain, ih (Nat.zero_le 2)]
    · rw [List.append_assoc, readBasic_escape, ih (Nat.zero_le 2), cons_some]

/-! ## Strings -/

/-- The line end in front of a text of several lines is dropped, and no other. -/
theorem dropLineEnd_openLines {written : List Char} (hopen : '\n' ∉ s → ∀ c ∈ written.head?,
    c ≠ '\n' ∧ c ≠ '\r') : dropLineEnd (openLines s ++ written) = written := by
  unfold openLines
  split_ifs with hlines
  · rfl
  · have hhead := hopen (by simpa using hlines)
    rw [List.nil_append]
    unfold dropLineEnd
    split
    · exact absurd rfl (hhead _ rfl).1
    · exact absurd rfl (hhead _ rfl).2
    · rfl

theorem dropLineEnd_escapeLines (s rest : List Char) :
    dropLineEnd (openLines s ++ (escapeLines 0 s ++ '"' :: rest)) =
      escapeLines 0 s ++ '"' :: rest := by
  refine dropLineEnd_openLines fun hline d hd => ?_
  cases s with
  | nil => exact Option.some.inj hd ▸ by decide
  | cons c s =>
    obtain ⟨hc, -⟩ := not_or.1 (List.mem_cons.not.1 hline)
    obtain ⟨e, t, heq, -, hnewline, hreturn⟩ := exists_escape c
    by_cases hquote : c = '"'
    · simp only [escapeLines, if_pos hquote] at hd
      exact Option.some.inj hd ▸ by decide
    · rw [escapeLines, if_neg hquote, if_neg (Ne.symm hc), heq] at hd
      exact Option.some.inj hd ▸ ⟨hnewline, hreturn⟩

theorem dropLineEnd_append (hcontrol : ∀ c ∈ s, isControl c = false) (rest : List Char) :
    dropLineEnd (openLines s ++ (s ++ '\'' :: rest)) = s ++ '\'' :: rest := by
  refine dropLineEnd_openLines fun hline d hd => ?_
  cases s with
  | nil => exact Option.some.inj hd ▸ by decide
  | cons c s =>
    obtain ⟨hc, -⟩ := not_or.1 (List.mem_cons.not.1 hline)
    obtain rfl := Option.some.inj hd
    refine ⟨Ne.symm hc, ?_⟩
    rintro rfl
    exact absurd (hcontrol _ List.mem_cons_self) (by decide)

/-- The forms without escapes are chosen only for a text that they hold. -/
theorem ofText_eq_literal (h : Style.ofText s = .literal) :
    s ≠ [] ∧ (∀ c ∈ s, isPlain c = true) ∧ '\'' ∉ s := by
  simp only [Style.ofText] at h
  split_ifs at h with hbasic hheld
  simp only [Bool.and_eq_true, Bool.not_eq_true', List.any_eq_false, List.contains_eq_mem,
    decide_eq_false_iff_not] at hheld
  obtain ⟨⟨hcontrol, hline⟩, hquote⟩ := hheld
  refine ⟨?_, fun c hc => ?_, hquote⟩
  · rintro rfl
    exact hbasic rfl
  · have hnewline : c ≠ '\n' := fun heq => hline (heq ▸ hc)
    simp [isPlain, hcontrol c hc, hnewline]

theorem ofText_eq_multilineLiteral (h : Style.ofText s = .multilineLiteral) :
    (∀ c ∈ s, isControl c = false) ∧ hasTriple '\'' s = false := by
  simp only [Style.ofText] at h
  split_ifs at h
  simp_all

theorem unquote?_basic (hclose : ∀ t, s ≠ '"' :: '"' :: t) :
    unquote? ('"' :: s) = readBasic false .text s := by
  unfold unquote?
  split <;> simp_all

theorem unquote?_literal (hclose : ∀ t, s ≠ '\'' :: '\'' :: t) :
    unquote? ('\'' :: s) = readLiteral s := by
  unfold unquote?
  split <;> simp_all

/-- A string that was written is read, whatever follows it but a quote. -/
theorem unquote?_quote (s : List Char) (hdouble : rest.head? ≠ some '"')
    (hsingle : rest.head? ≠ some '\'') : unquote? (quote s ++ rest) = some (s, rest) := by
  unfold quote
  split
  · next h =>
    rw [List.cons_append, unquote?_basic, List.append_assoc]
    · exact readBasic_flatMap_escape s rest
    · cases s with
      | nil =>
        intro t heq
        have htail : rest = '"' :: t := (List.cons.inj heq).2
        exact hdouble (by rw [htail, List.head?_cons])
      | cons c s =>
        obtain ⟨d, t, heq, hd, -⟩ := exists_escape c
        simp [heq, hd]
  · next h =>
    obtain ⟨hne, hplain, hquote⟩ := ofText_eq_literal h
    rw [List.cons_append, unquote?_literal, List.append_assoc]
    · exact readLiteral_append hplain hquote
    · obtain ⟨c, s, rfl⟩ := List.exists_cons_of_ne_nil hne
      intro t heq
      exact (not_or.1 (List.mem_cons.not.1 hquote)).1 (List.cons.inj heq).1.symm
  · next h =>
    simp only [List.cons_append, List.append_assoc, unquote?, List.nil_append,
      dropLineEnd_escapeLines]
    exact readBasic_escapeLines s (Nat.zero_le 2) hdouble
  · next h =>
    obtain ⟨hcontrol, htriple⟩ := ofText_eq_multilineLiteral h
    simp only [List.cons_append, List.append_assoc, unquote?, List.nil_append,
      dropLineEnd_append hcontrol]
    exact readLiteralLines_append hcontrol htriple hsingle

end
end RecordGraph.Toml
