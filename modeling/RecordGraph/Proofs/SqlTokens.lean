import Mathlib.Data.Int.Basic
import Mathlib.Data.List.Basic
import RecordGraph.Sql.Token

/-!
# Texts of tokens

A quoted name, a literal and a word are each cut from a text as one token, whatever
they hold, if a blank, a comma or a bracket follows. So texts that are put
together from them with such characters in between are cut where they were joined.
-/
namespace RecordGraph.Sql

section
variable {quote : Char} {s rest : List Char}

/-! ## Quoted texts -/

/-- A quoted text ends where it was closed, unless another quote follows. -/
theorem readQuoted_double (h : rest.head? ≠ some quote) :
    readQuoted quote (double quote s ++ quote :: rest) = some (s, rest) := by
  induction s with
  | nil =>
    cases rest with
    | nil => simp [double, readQuoted]
    | cons d rest =>
      have hd : d ≠ quote := by simpa using h
      simp [double, readQuoted, hd]
  | cons c s ih =>
    have hcons : double quote (c :: s) = (if c = quote then [quote, quote] else [c]) ++
        double quote s := List.flatMap_cons
    rw [hcons]
    by_cases hc : c = quote
    · subst hc
      simp [readQuoted, ih]
    · rw [if_neg hc, List.append_assoc, List.singleton_append]
      cases hmore : double quote s ++ quote :: rest with
      | nil => simp at hmore
      | cons d more =>
        rw [hmore] at ih
        simp [readQuoted, hc, ih]

theorem double_of_notMem (h : quote ∉ s) : double quote s = s := by
  have hsame : ∀ c ∈ s, (if c = quote then [quote, quote] else [c]) = [c] := by
    rintro c hc
    rw [if_neg]
    rintro rfl
    exact h hc
  rw [double, List.flatMap_congr hsame, List.flatMap_singleton']

/-! ## Ends of tokens -/

/-- What may follow a token that has no end of its own. -/
def Stops (rest : List Char) : Prop := ∀ c ∈ rest.head?, c ∈ [' ', ',', '(', ')']

theorem stops_nil : Stops [] := by simp [Stops]

theorem stops_cons {c : Char} (hc : c ∈ [' ', ',', '(', ')']) : Stops (c :: s) := by
  simpa [Stops] using hc

theorem Stops.head?_ne (h : Stops rest) {c : Char} (hc : c ∉ [' ', ',', '(', ')']) :
    rest.head? ≠ some c :=
  fun hhead => hc (h c hhead)

/-- A run of characters of one kind ends where it is stopped. -/
theorem Stops.span (h : Stops rest) {p : Char → Bool} (hp : [' ', ',', '(', ')'].any p = false)
    (hs : ∀ c ∈ s, p c = true) : (s ++ rest).takeWhile p = s ∧ (s ++ rest).dropWhile p = rest := by
  rw [List.takeWhile_append_of_pos hs, List.dropWhile_append_of_pos hs]
  cases rest with
  | nil => simp
  | cons c rest => simp [List.any_eq_false.1 hp c (h c rfl)]

end

/-! ## Characters of tokens -/

theorem isBlank_of_graphic {c : Char} (h : 0x21 ≤ c.toNat ∧ c.toNat ≤ 0x7A) :
    Text.isBlank c = false := by
  simp only [Text.isBlank, Bool.or_eq_false_iff, Bool.and_eq_false_iff, decide_eq_false_iff_not,
    beq_eq_false_iff_ne]
  omega

theorem isBlank_of_isWordChar {c : Char} (h : isWordChar c = true) : Text.isBlank c = false := by
  rw [isWordChar, Bool.or_eq_true, beq_iff_eq] at h
  rcases h with h | rfl
  · delta Char.isAlphanum Char.isAlpha Char.isUpper Char.isLower Char.isDigit at h
    simp only [Bool.or_eq_true, Bool.and_eq_true, decide_eq_true_eq, ge_iff_le,
      UInt32.le_iff_toNat_le, Char.toNat_val, UInt32.reduceToNat, Char.reduceVal] at h
    exact isBlank_of_graphic (by omega)
  · decide

theorem isBlank_of_isNumberChar {c : Char} (h : isNumberChar c = true) :
    Text.isBlank c = false := by
  rw [isNumberChar, Bool.or_eq_true, Bool.or_eq_true, beq_iff_eq, beq_iff_eq] at h
  rcases h with (h | rfl) | rfl
  · exact isBlank_of_isWordChar (by simp [isWordChar, Char.isAlphanum, h])
  · decide
  · decide

/-! ## Spelled tokens -/

/-- The text is cut as the token wherever it is stopped. -/
def Spells (text : List Char) (t : Token) : Prop :=
  ∃ c s, text = c :: s ∧ Text.isBlank c = false ∧
    ∀ rest, Stops rest → readToken (c :: (s ++ rest)) = some (t, rest)

section
variable {s s' rest : List Char}

theorem spells_name (name : String) : Spells (enclose '"' name.toList) (.name name) := by
  refine ⟨'"', _, rfl, by decide, fun rest hrest => ?_⟩
  rw [List.append_assoc, List.singleton_append, readToken,
    readQuoted_double (hrest.head?_ne (by decide)), Option.map_some]
  simp only [String.ofList_toList]

theorem spells_text (s : List Char) : Spells (enclose '\'' s) (.literal (enclose '\'' s)) := by
  refine ⟨'\'', _, rfl, by decide, fun rest hrest => ?_⟩
  rw [List.append_assoc, List.singleton_append, readToken,
    readQuoted_double (hrest.head?_ne (by decide)), Option.map_some]

theorem spells_blob (s : List Char) :
    Spells ('X' :: enclose '\'' s) (.literal ('X' :: enclose '\'' s)) := by
  refine ⟨'X', _, rfl, by decide, fun rest hrest => ?_⟩
  rw [enclose, List.cons_append, List.append_assoc, List.singleton_append, readToken,
    readQuoted_double (hrest.head?_ne (by decide)), Option.map_some]
  rfl

/-- A token that is no quoted text. -/
theorem readToken_plain {c : Char} (hc : c ≠ '"' ∧ c ≠ '\'' ∧ c ≠ 'X') :
    readToken (c :: s) = if isNumberChar c then
        some (.literal ((c :: s).takeWhile isNumberChar), (c :: s).dropWhile isNumberChar)
      else if isWordChar c then
        some (if (c :: s).takeWhile isWordChar = ['N', 'U', 'L', 'L'] then
            .literal ((c :: s).takeWhile isWordChar)
          else .word (String.ofList ((c :: s).takeWhile isWordChar)),
          (c :: s).dropWhile isWordChar)
      else some (.mark c, s) := by
  unfold readToken
  split
  · simp_all
  · simp_all
  · simp_all
  · next heq =>
    obtain ⟨rfl, rfl⟩ := List.cons.inj heq
    rfl
  · simp_all

/-- A character of one kind is none of another kind. -/
theorem ne_of_kind {p : Char → Bool} {c d : Char} (hc : p c = true) (hd : p d = false) : c ≠ d := by
  rintro rfl
  rw [hc] at hd
  cases hd

/-- A number as a statement writes it. -/
def IsNumber (s : List Char) : Prop := s ≠ [] ∧ ∀ c ∈ s, isNumberChar c = true

theorem spells_number (h : IsNumber s) : Spells s (.literal s) := by
  obtain ⟨hne, hs⟩ := h
  obtain ⟨c, s, rfl⟩ := List.exists_cons_of_ne_nil hne
  have hc : isNumberChar c = true := hs c List.mem_cons_self
  refine ⟨c, s, rfl, isBlank_of_isNumberChar hc, fun rest hrest => ?_⟩
  obtain ⟨htake, hdrop⟩ := hrest.span (by decide) hs
  have hplain : c ≠ '"' ∧ c ≠ '\'' ∧ c ≠ 'X' :=
    ⟨ne_of_kind hc (by decide), ne_of_kind hc (by decide), ne_of_kind hc (by decide)⟩
  rw [readToken_plain hplain, if_pos hc, ← List.cons_append, htake, hdrop]

/-- A word that does not begin like a number or a blob. -/
theorem spells_word {c : Char} (hs : ∀ d ∈ c :: s, isWordChar d = true)
    (hc : isNumberChar c = false ∧ c ≠ 'X') :
    Spells (c :: s) (if c :: s = ['N', 'U', 'L', 'L'] then .literal (c :: s)
      else .word (String.ofList (c :: s))) := by
  have hword : isWordChar c = true := hs c List.mem_cons_self
  refine ⟨c, s, rfl, isBlank_of_isWordChar hword, fun rest hrest => ?_⟩
  obtain ⟨htake, hdrop⟩ := hrest.span (by decide) hs
  have hplain : c ≠ '"' ∧ c ≠ '\'' ∧ c ≠ 'X' :=
    ⟨ne_of_kind hword (by decide), ne_of_kind hword (by decide), hc.2⟩
  rw [readToken_plain hplain, if_neg (by simp [hc.1]), if_pos hword, ← List.cons_append, htake,
    hdrop]

/-! ## Literals -/

theorem isNumber_digits (n : ℕ) : IsNumber (Text.digits n) := by
  refine ⟨Nat.toDigits_ne_nil, fun c hc => ?_⟩
  rw [isNumberChar, Nat.isDigit_of_mem_toDigits (by decide) (by decide) hc]
  rfl

theorem IsNumber.cons {c : Char} (hc : isNumberChar c = true) (h : IsNumber s) :
    IsNumber (c :: s) :=
  ⟨List.cons_ne_nil _ _, List.forall_mem_cons.2 ⟨hc, h.2⟩⟩

theorem IsNumber.append (h : IsNumber s) (h' : ∀ c ∈ s', isNumberChar c = true) :
    IsNumber (s ++ s') :=
  ⟨List.append_ne_nil_of_left_ne_nil h.1 _, List.forall_mem_append.2 ⟨h.2, h'⟩⟩

theorem isNumberChar_of_mem_zeros {k : ℕ} : ∀ c ∈ List.replicate k '0', isNumberChar c = true := by
  intro c hc
  rw [(List.mem_replicate.1 hc).2]
  decide

theorem isNumber_signedDigits (n : ℤ) : IsNumber (Text.signedDigits n) := by
  unfold Text.signedDigits
  split
  · exact (isNumber_digits _).cons (by decide)
  · exact isNumber_digits _

theorem isNumber_signed {negative : Bool} (h : IsNumber s) :
    IsNumber (Binary64.signed negative s) := by
  unfold Binary64.signed
  split
  · exact h.cons (by decide)
  · exact h

theorem isNumber_positional (d : Decimal) : IsNumber d.positional := by
  have hdigits := isNumber_digits d.digits
  have hpoint : isNumberChar '.' = true := by decide
  unfold Decimal.positional
  dsimp only
  split
  · split
    · exact ⟨by simp, List.all_eq_true.1 (by decide)⟩
    · exact hdigits.append isNumberChar_of_mem_zeros
  · split
    · refine ⟨by simp, List.forall_mem_append.2 ⟨fun c hc => ?_, List.forall_mem_cons.2 ?_⟩⟩
      · exact hdigits.2 c (List.mem_of_mem_take hc)
      · exact ⟨hpoint, fun c hc => hdigits.2 c (List.mem_of_mem_drop hc)⟩
    · refine ⟨by simp, List.forall_mem_cons.2 ⟨by decide, List.forall_mem_cons.2 ⟨hpoint, ?_⟩⟩⟩
      exact List.forall_mem_append.2 ⟨isNumberChar_of_mem_zeros, hdigits.2⟩

theorem isNumber_pointed (negative : Bool) (m : Magnitude) :
    IsNumber (Binary64.pointed negative m) := by
  unfold Binary64.pointed
  split
  · exact isNumber_signed ((isNumber_digits _).append (List.all_eq_true.1 (by decide)))
  · exact isNumber_signed (isNumber_positional _)

theorem quote_notMem_hexBytes (bytes : List UInt8) :
    '\'' ∉ bytes.flatMap (Value.hexByte hexDigit) := by
  have hdigit : ∀ n < 16, hexDigit n ≠ '\'' := by decide
  intro hmem
  obtain ⟨b, -, hb⟩ := List.mem_flatMap.1 hmem
  have hlt := b.toNat_lt
  simp only [Value.hexByte, List.mem_cons, List.not_mem_nil, or_false] at hb
  rcases hb with hb | hb
  · exact hdigit _ (by omega) hb.symm
  · exact hdigit _ (by omega) hb.symm

/-- The literal of any value is one token. -/
theorem spells_literal (v : Value) : Spells (literal v) (.literal (literal v)) := by
  have hnull : Spells ['N', 'U', 'L', 'L'] (.literal ['N', 'U', 'L', 'L']) :=
    spells_word (List.all_eq_true.1 (by decide)) (by decide)
  cases v with
  | null => exact hnull
  | integer n => exact spells_number (isNumber_signedDigits _)
  | real x =>
    cases x with
    | finite negative m => exact spells_number (isNumber_pointed negative m)
    | nan => exact hnull
    | infinite negative => exact hnull
  | text s => exact spells_text s.toList
  | blob bytes =>
    have hliteral : literal (.blob bytes) =
        'X' :: enclose '\'' (bytes.flatMap (Value.hexByte hexDigit)) := by
      rw [enclose, double_of_notMem (quote_notMem_hexBytes bytes)]
      rfl
    rw [hliteral]
    exact spells_blob _
  | dateTime d => exact spells_text d.toText

/-! ## Texts of several tokens -/

/-- The text is cut into the tokens. -/
def Lexes (s : List Char) (ts : List Token) : Prop :=
  ∀ fuel, s.length ≤ fuel → tokenize fuel s = some ts

/-- The text is cut into the tokens wherever it is stopped, and what follows is cut on its own. -/
def Writes (s : List Char) (ts : List Token) : Prop :=
  ∀ rest more, Stops rest → Lexes rest more → Lexes (s ++ rest) (ts ++ more)

section
variable {ts ts' more : List Token} {t : Token}

theorem lexes_nil : Lexes [] [] := by
  intro fuel _
  cases fuel <;> rfl

theorem Lexes.blank (h : Lexes rest more) : Lexes (' ' :: rest) more := by
  intro fuel hfuel
  obtain ⟨fuel, rfl⟩ := Nat.exists_eq_succ_of_ne_zero (by simp at hfuel; omega : fuel ≠ 0)
  have hblank : Text.trimStart (' ' :: rest) = Text.trimStart rest :=
    List.dropWhile_cons_of_pos (by decide)
  have hrest := h (fuel + 1) (by simp at hfuel; omega)
  rw [tokenize] at hrest
  rw [tokenize, hblank, hrest]

/-- One token, and what follows it. -/
theorem Lexes.token {c : Char} (hblank : Text.isBlank c = false)
    (hread : readToken (c :: s) = some (t, rest)) (hlength : rest.length ≤ s.length)
    (h : Lexes rest more) : Lexes (c :: s) (t :: more) := by
  intro fuel hfuel
  rw [List.length_cons] at hfuel
  obtain ⟨fuel, rfl⟩ := Nat.exists_eq_succ_of_ne_zero (by omega : fuel ≠ 0)
  have htrim : Text.trimStart (c :: s) = c :: s :=
    List.dropWhile_cons_of_neg (by simp [hblank])
  have hrest := h fuel (by omega)
  simp only [tokenize, htrim, hread, Option.bind_eq_bind, Option.bind_some, hrest, Option.pure_def]

theorem Spells.writes (h : Spells s t) : Writes s [t] := by
  intro rest more hrest hmore
  obtain ⟨c, s, rfl, hblank, hread⟩ := h
  exact .token hblank (hread rest hrest) (by simp) hmore

/-- A mark is a token whatever follows. -/
theorem Lexes.mark {c : Char} (hc : c ∈ [',', '(', ')', '=']) (h : Lexes rest more) :
    Lexes (c :: rest) (.mark c :: more) := by
  obtain ⟨hquote, hnumber, hword, hblank⟩ : (c ≠ '"' ∧ c ≠ '\'' ∧ c ≠ 'X') ∧
      isNumberChar c = false ∧ isWordChar c = false ∧ Text.isBlank c = false := by
    simp only [List.mem_cons, List.not_mem_nil, or_false] at hc
    rcases hc with rfl | rfl | rfl | rfl <;> decide
  refine .token hblank ?_ le_rfl h
  rw [readToken_plain hquote, if_neg (by simp [hnumber]), if_neg (by simp [hword])]

namespace Writes

variable (h : Writes s ts) (h' : Writes s' ts')

include h h'

theorem blank : Writes (s ++ ' ' :: s') (ts ++ ts') := by
  intro rest more hrest hmore
  rw [List.append_assoc, List.append_assoc]
  exact h _ _ (stops_cons (by decide)) (h' _ _ hrest hmore).blank

theorem comma : Writes (s ++ [',', ' '] ++ s') (ts ++ [.mark ','] ++ ts') := by
  intro rest more hrest hmore
  rw [List.append_assoc, List.append_assoc, List.append_assoc, List.append_assoc]
  exact h _ _ (stops_cons (by decide)) (.mark (by decide) (h' _ _ hrest hmore).blank)

theorem equals : Writes (s ++ [' ', '=', ' '] ++ s') (ts ++ [.mark '='] ++ ts') := by
  intro rest more hrest hmore
  rw [List.append_assoc, List.append_assoc, List.append_assoc, List.append_assoc]
  exact h _ _ (stops_cons (by decide)) (Lexes.mark (by decide) (h' _ _ hrest hmore).blank).blank

theorem brackets :
    Writes (s ++ '(' :: (s' ++ [')'])) (ts ++ .mark '(' :: (ts' ++ [.mark ')'])) := by
  intro rest more hrest hmore
  simp only [List.append_assoc, List.cons_append, List.nil_append]
  refine h _ _ (stops_cons (by decide)) (.mark (by decide) ?_)
  exact h' _ _ (stops_cons (by decide)) (.mark (by decide) hmore)

end Writes

/-- Texts with commas between them. -/
theorem Writes.list {α : Type*} {text : α → List Char} {tokens : α → List Token}
    (h : ∀ a, Writes (text a) (tokens a)) {l : List α} (hl : l ≠ []) :
    Writes ([',', ' '].intercalate (l.map text)) ([.mark ','].intercalate (l.map tokens)) := by
  induction l with
  | nil => exact absurd rfl hl
  | cons a l ih =>
    cases l with
    | nil => simpa [List.intercalate_singleton] using h a
    | cons b l =>
      simp only [List.map_cons, List.intercalate_cons_cons]
      exact (h a).comma (ih (by simp))

theorem Writes.tokens?_eq {text : String} (h : Writes text.toList ts) : tokens? text = some ts := by
  have hlexes := h _ _ stops_nil lexes_nil text.length (by simp [String.length_toList])
  rwa [List.append_nil, List.append_nil] at hlexes

end
end
end RecordGraph.Sql
