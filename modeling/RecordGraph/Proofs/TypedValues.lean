import Mathlib.Data.List.TakeWhile
import RecordGraph.Proofs.NumberText
import RecordGraph.Proofs.SqlTokens
import RecordGraph.Value.Reader

/-!
# Typed texts

What is displayed can be typed: an integer is read from the text that shows it, a date up to what
its text leaves out, and a text from between quotes. A text that is typed is never changed.
-/
namespace RecordGraph

/-! ## Blanks at the ends -/

namespace Text

section
variable {s before after : List Char}

/-- No blank at either end. -/
def IsTrimmed (s : List Char) : Prop :=
  (∀ c ∈ s.head?, isBlank c = false) ∧ ∀ c ∈ s.getLast?, isBlank c = false

theorem trimStart_of_head? (h : ∀ c ∈ s.head?, isBlank c = false) : trimStart s = s := by
  cases s with
  | nil => rfl
  | cons c s => exact List.dropWhile_cons_of_neg (by simp [h c rfl])

theorem trimEnd_of_getLast? (h : ∀ c ∈ s.getLast?, isBlank c = false) : trimEnd s = s := by
  have hreverse : trimStart s.reverse = s.reverse :=
    trimStart_of_head? (by rwa [List.head?_reverse])
  rw [trimEnd, ← trimStart, hreverse, List.reverse_reverse]

/-- Blanks around a text are trimmed, and nothing else. -/
theorem trim_surrounded (hs : IsTrimmed s) (hne : s ≠ [])
    (hblank : ∀ c ∈ before ++ after, isBlank c = true) : trim (before ++ s ++ after) = s := by
  obtain ⟨hbefore, hafter⟩ := List.forall_mem_append.1 hblank
  have hstart : trimStart (before ++ s ++ after) = s ++ after := by
    rw [trimStart, List.append_assoc, List.dropWhile_append_of_pos hbefore, ← trimStart]
    refine trimStart_of_head? fun c hc => hs.1 c ?_
    rwa [List.head?_append_of_ne_nil _ hne] at hc
  have hend : trimEnd (s ++ after) = trimEnd s := by
    rw [trimEnd, trimEnd, List.reverse_append, List.dropWhile_append_of_pos]
    simpa using hafter
  rw [trim, hstart, hend, trimEnd_of_getLast? hs.2]

theorem IsTrimmed.trim_eq (hs : IsTrimmed s) : trim s = s := by
  rw [trim, trimStart_of_head? hs.1, trimEnd_of_getLast? hs.2]

theorem isBlank_of_isDigit {c : Char} (hc : c.isDigit = true) : isBlank c = false :=
  Sql.isBlank_of_isNumberChar (by simp [Sql.isNumberChar, hc])

theorem trimStart_of_isNatural {rest : List Char} (h : IsNatural s) :
    trimStart (s ++ rest) = s ++ rest := by
  refine trimStart_of_head? fun c hc => isBlank_of_isDigit (h.2 c ?_)
  rw [List.head?_append_of_ne_nil _ h.1] at hc
  exact List.mem_of_head? hc

end

/-! ## Padded numbers -/

section
variable {width n : ℕ}

theorem isNatural_paddedDigits (width n : ℕ) : IsNatural (paddedDigits width n) :=
  isNatural_zeros (isNatural_digits n)

theorem ofDigits_paddedDigits : ofDigits (paddedDigits width n) = n := by
  rw [paddedDigits, ofDigits_zeros, ofDigits_digits]

theorem length_paddedDigits (hwidth : 0 < width) (hn : n < 10 ^ width) :
    (paddedDigits width n).length = width := by
  have hle : (digits n).length ≤ width := (Nat.length_toDigits_le_iff (by decide) hwidth).2 hn
  rw [paddedDigits, List.length_append, List.length_replicate]
  omega

end
end Text

/-! ## Dates -/

namespace DateTime

variable {limit n : ℕ} {s rest : List Char} {d : DateTime}

theorem readField_paddedDigits (hlimit : 0 < limit) (hn : n < 10 ^ limit) :
    readField limit (Text.paddedDigits limit n ++ rest) = some (n, rest) := by
  obtain ⟨hne, hdigits⟩ := Text.isNatural_paddedDigits limit n
  have hlength := Text.length_paddedDigits hlimit hn
  have htake : ((Text.paddedDigits limit n ++ rest).take limit).takeWhile Char.isDigit =
      Text.paddedDigits limit n := by
    rw [List.take_left' hlength, List.takeWhile_eq_self_iff.2 hdigits]
  have hdrop : (Text.paddedDigits limit n ++ rest).drop (Text.paddedDigits limit n).length = rest :=
    List.drop_left
  simp only [readField, Text.trimStart_of_isNatural ⟨hne, hdigits⟩, htake, if_neg hne,
    Text.ofDigits_paddedDigits, hdrop]

theorem readField_blank : readField limit (' ' :: s) = readField limit s := by
  have hstart : Text.trimStart (' ' :: s) = Text.trimStart s :=
    List.dropWhile_cons_of_pos (by decide)
  rw [readField, hstart, readField]

theorem readYear_signed {negative : Bool} :
    readYear.signed negative (Text.paddedDigits 4 n ++ '-' :: rest) =
      some (if negative then -(n : ℤ) else n, '-' :: rest) := by
  obtain ⟨hne, hdigits⟩ := Text.isNatural_paddedDigits 4 n
  have hspan : Text.spanDigits (Text.paddedDigits 4 n ++ '-' :: rest) =
      (Text.paddedDigits 4 n, '-' :: rest) := Text.spanDigits_append hdigits (by simp)
  simp only [readYear.signed, hspan, if_neg hne, Text.ofDigits_paddedDigits]

/-- A year ends at the dash behind it. -/
theorem readYear_yearText (year : ℤ) :
    readYear (Date.yearText year ++ '-' :: rest) = some (year, '-' :: rest) := by
  unfold Date.yearText
  split
  · next hfour =>
    have hnatural := Text.isNatural_paddedDigits 4 year.natAbs
    have hfield : readField 4 (Text.paddedDigits 4 year.natAbs ++ '-' :: rest) =
        some (year.natAbs, '-' :: rest) := readField_paddedDigits (by decide) (by omega)
    have hyear : (year.natAbs : ℤ) = year := by omega
    unfold readYear
    rw [Text.trimStart_of_isNatural hnatural]
    split
    · next heq => exact absurd heq (hnatural.append_ne_cons (by decide))
    · next heq => exact absurd heq (hnatural.append_ne_cons (by decide))
    · simp only [hfield, Option.map_some, hyear]
  · split
    · next hneg =>
      have hyear : -(year.natAbs : ℤ) = year := by omega
      exact readYear_signed.trans (by rw [if_pos rfl, hyear])
    · next hpos =>
      have hyear : (year.natAbs : ℤ) = year := by omega
      exact readYear_signed.trans (by rw [if_neg (by decide), hyear])

theorem date_ofFields? (d : Date) : Date.ofFields? d.year d.month d.day = some d :=
  dif_pos ⟨d.year_mem, d.month_mem, d.day_mem⟩

theorem writtenSecond_le (d : DateTime) : d.writtenSecond ≤ 60 := by
  have hsecond := d.second_lt
  unfold writtenSecond
  split <;> omega

theorem shown_of_early (h : 1000000000 ≤ d.nanosecond ∧ d.second < 59) :
    d.shown = ⟨d.date, d.hour, d.minute, d.second + 1, 0, d.hour_lt, d.minute_lt,
      Nat.add_lt_add_right h.2 1, by decide⟩ := dif_pos h

theorem shown_of_not_early (h : ¬ (1000000000 ≤ d.nanosecond ∧ d.second < 59)) :
    d.shown = d.wholeSecond := dif_neg h

/-- The text hides only the fraction, but for a leap second before the end of its minute. -/
theorem shown_eq_wholeSecond_iff :
    d.shown = d.wholeSecond ↔ (1000000000 ≤ d.nanosecond → d.second = 59) := by
  have hsecond := d.second_lt
  constructor
  · intro h hleap
    by_contra hne
    rw [shown_of_early ⟨hleap, by omega⟩] at h
    have hlater : d.second + 1 = d.second := congrArg second h
    omega
  · exact fun h => shown_of_not_early fun ⟨hleap, hlt⟩ => hlt.ne (h hleap)

/-- A second that is written as 60 is read as a leap second, and any other as it is written. -/
theorem ofFields?_writtenSecond (d : DateTime) :
    (if d.writtenSecond = 60 then ofFields? d.date d.hour d.minute 59 1000000000
      else ofFields? d.date d.hour d.minute d.writtenSecond 0) = some d.shown := by
  have hhour := d.hour_lt
  have hminute := d.minute_lt
  have hsecond := d.second_lt
  by_cases hleap : 1000000000 ≤ d.nanosecond
  · have hwritten : d.writtenSecond = d.second + 1 := if_pos hleap
    by_cases hlast : d.second = 59
    · have hshown : d.shown = ⟨d.date, d.hour, d.minute, 59, 1000000000, hhour, hminute, by decide,
          by decide⟩ := by
        rw [shown_of_not_early (by omega)]
        simp only [wholeSecond, if_pos hleap, hlast]
      rw [if_pos (by omega), hshown]
      exact dif_pos ⟨hhour, hminute, by decide, by decide, by simp⟩
    · rw [hwritten, if_neg (by omega), shown_of_early ⟨hleap, by omega⟩]
      exact dif_pos ⟨hhour, hminute, by omega, by decide, by simp⟩
  · have hwritten : d.writtenSecond = d.second := if_neg hleap
    have hshown : d.shown = ⟨d.date, d.hour, d.minute, d.second, 0, hhour, hminute, hsecond,
        by decide⟩ := by
      rw [shown_of_not_early (by omega)]
      simp only [wholeSecond, if_neg hleap]
    rw [hwritten, if_neg hsecond.ne, hshown]
    exact dif_pos ⟨hhour, hminute, hsecond, by decide, by simp⟩

theorem read_toText (d : DateTime) : read d.toText = some d.shown := by
  have htwo {n : ℕ} (hn : n < 100) (rest : List Char) :
      readField 2 (Text.paddedDigits 2 n ++ rest) = some (n, rest) :=
    readField_paddedDigits (by decide) hn
  have hday : d.date.day < 100 := by
    have hle : Calendar.daysInMonth d.date.year d.date.month ≤ 31 := by
      unfold Calendar.daysInMonth
      split_ifs <;> decide
    have hmem := d.date.day_mem
    omega
  have hmonth : d.date.month < 100 := d.date.month_mem.2.trans_lt (by decide)
  have hhour : d.hour < 100 := d.hour_lt.trans (by decide)
  have hminute : d.minute < 100 := d.minute_lt.trans (by decide)
  have hmark (c : Char) (rest : List Char) : [c].isPrefixOf? (c :: rest) = some rest :=
    List.isPrefixOf?_eq_some_iff_append_eq.2 rfl
  have hsecond : readField 2 (Text.paddedDigits 2 d.writtenSecond) =
      some (d.writtenSecond, []) := by
    simpa using htwo (d.writtenSecond_le.trans_lt (by decide)) []
  unfold read toText Date.toText
  simp only [List.append_assoc, List.cons_append, readYear_yearText, Option.bind_eq_bind,
    Option.bind_some, hmark, readField_blank, htwo hmonth, htwo hday, htwo hhour,
    htwo hminute, hsecond, date_ofFields?]
  exact (if_neg (by simp)).trans d.ofFields?_writtenSecond

end DateTime

/-! ## Typed values -/

namespace Value

section
variable {s inner : List Char} {raw t : String}

theorem unquote?_eq_some : unquote? s = some inner ↔ s = '\'' :: (inner ++ ['\'']) := by
  constructor
  · intro h
    unfold unquote? at h
    split at h
    · next rest =>
      split at h
      · next hlast =>
        rw [← Option.some.inj h, List.dropLast_append_getLast? _ hlast]
      · cases h
    · cases h
  · rintro rfl
    simp [unquote?]

/-- What a number or a date begins with, but neither a quoted text nor null. -/
def StartsNumber (s : List Char) : Prop :=
  ∃ c rest, s = c :: rest ∧ (c.isDigit = true ∨ c = '-' ∨ c = '+')

theorem startsNumber_of_isNatural {rest : List Char} (h : Text.IsNatural s) :
    StartsNumber (s ++ rest) := by
  obtain ⟨c, s, rfl⟩ := List.exists_cons_of_ne_nil h.1
  exact ⟨c, s ++ rest, rfl, .inl (h.2 c List.mem_cons_self)⟩

theorem startsNumber_signedDigits (n : ℤ) : StartsNumber (Text.signedDigits n) := by
  unfold Text.signedDigits
  split
  · exact ⟨_, _, rfl, .inr (.inl rfl)⟩
  · rw [← List.append_nil (Text.digits _)]
    exact startsNumber_of_isNatural (Text.isNatural_digits _)

theorem toLower_of_isDigit {c : Char} (hc : c.isDigit = true) : c.toLower = c := by
  delta Char.isDigit at hc
  refine dif_neg ?_
  simp only [Bool.and_eq_true, decide_eq_true_eq, ge_iff_le, UInt32.le_iff_toNat_le,
    UInt32.reduceToNat, Char.reduceVal] at hc ⊢
  omega

namespace StartsNumber

variable (h : StartsNumber s)

include h

theorem isBlank_head : ∀ c ∈ s.head?, Text.isBlank c = false := by
  obtain ⟨c, rest, rfl, hc⟩ := h
  intro d hd
  obtain rfl := Option.some.inj hd
  rcases hc with hc | rfl | rfl
  · exact Text.isBlank_of_isDigit hc
  · decide
  · decide

theorem unquote? : Value.unquote? s = none := by
  obtain ⟨c, rest, rfl, hc⟩ := h
  unfold Value.unquote?
  split
  · next heq =>
    obtain ⟨rfl, -⟩ := List.cons.inj heq
    exact absurd hc (by decide)
  · rfl

theorem not_isNullWord : ¬ IsNullWord s := by
  obtain ⟨c, rest, rfl, hc⟩ := h
  intro hnull
  have hn : c.toLower = 'n' := (List.cons.inj hnull).1
  rcases hc with hc | rfl | rfl
  · rw [toLower_of_isDigit hc] at hn
    rw [hn] at hc
    cases hc
  · cases hn
  · cases hn

/-- Numbers are tried before dates. -/
theorem ofTyped_eq (hraw : Text.trim raw.toList = s) : ofTyped raw =
    match Text.readInt64 s with
    | some n => integer n
    | none => match (Binary64.read s).filter (fun x => x.IsFinite) with
      | some x => real x
      | none => match DateTime.read s with
        | some d => dateTime d
        | none => text raw := by
  rw [ofTyped]
  simp only [hraw, h.unquote?]
  exact if_neg h.not_isNullWord

end StartsNumber

/-! ## Integers -/

theorem isTrimmed_signedDigits (n : ℤ) : Text.IsTrimmed (Text.signedDigits n) :=
  ⟨fun c hc => Sql.isBlank_of_isNumberChar
      ((Sql.isNumber_signedDigits n).2 c (List.mem_of_head? hc)),
    fun c hc => Sql.isBlank_of_isNumberChar
      ((Sql.isNumber_signedDigits n).2 c (List.mem_of_getLast? hc))⟩

theorem ofTyped_integer (n : Int64) {before after : List Char}
    (hblank : ∀ c ∈ before ++ after, Text.isBlank c = true) :
    ofTyped (String.ofList before ++ (integer n).display ++ String.ofList after) = integer n := by
  have hraw : Text.trim (String.ofList before ++ (integer n).display ++
      String.ofList after).toList = Text.signedDigits n.toInt := by
    simpa [display] using Text.trim_surrounded (isTrimmed_signedDigits n.toInt)
      (Sql.isNumber_signedDigits _).1 hblank
  rw [(startsNumber_signedDigits _).ofTyped_eq hraw, Text.readInt64_signedDigits]

/-! ## Dates -/

/-- Behind the year of a date stands a dash. -/
theorem exists_toText_eq_year (d : DateTime) :
    ∃ rest, d.toText = Date.yearText d.date.year ++ '-' :: rest :=
  ⟨_, by simp only [DateTime.toText, Date.toText, List.append_assoc, List.cons_append]; rfl⟩

/-- The text of a date ends with its second. -/
theorem exists_toText_eq_second (d : DateTime) :
    ∃ front, d.toText = front ++ Text.paddedDigits 2 d.writtenSecond :=
  ⟨_, by rw [DateTime.toText, List.append_cons]⟩

theorem splitSign_yearText (year : ℤ) (rest : List Char) :
    ∃ negative, Text.splitSign (Date.yearText year ++ rest) =
      (negative, Text.paddedDigits 4 year.natAbs ++ rest) := by
  unfold Date.yearText
  split
  · exact ⟨false, Text.splitSign_of_isNatural (Text.isNatural_paddedDigits ..)⟩
  · split
    · exact ⟨true, rfl⟩
    · exact ⟨false, rfl⟩

theorem startsNumber_yearText (year : ℤ) (rest : List Char) :
    StartsNumber (Date.yearText year ++ rest) := by
  unfold Date.yearText
  split
  · exact startsNumber_of_isNatural (Text.isNatural_paddedDigits ..)
  · split
    · exact ⟨_, _, rfl, .inr (.inl rfl)⟩
    · exact ⟨_, _, rfl, .inr (.inr rfl)⟩

theorem readInt64_yearText (year : ℤ) (rest : List Char) :
    Text.readInt64 (Date.yearText year ++ '-' :: rest) = none := by
  obtain ⟨negative, hsign⟩ := splitSign_yearText year ('-' :: rest)
  have hnat : Text.readNat (Text.paddedDigits 4 year.natAbs ++ '-' :: rest) = none :=
    if_neg (by simp)
  simp only [Text.readInt64, hsign, hnat, Option.bind_eq_bind, Option.bind_none]

theorem read_yearText (year : ℤ) (rest : List Char) :
    Binary64.read (Date.yearText year ++ '-' :: rest) = none := by
  obtain ⟨negative, hsign⟩ := splitSign_yearText year ('-' :: rest)
  obtain ⟨hne, hdigits⟩ := Text.isNatural_paddedDigits 4 year.natAbs
  have hspan : Text.spanDigits (Text.paddedDigits 4 year.natAbs ++ '-' :: rest) =
      (Text.paddedDigits 4 year.natAbs, '-' :: rest) := Text.spanDigits_append hdigits (by simp)
  have hdecimal : Binary64.readDecimal (Text.paddedDigits 4 year.natAbs ++ '-' :: rest) = none := by
    simp [Binary64.readDecimal, hspan, hne, Binary64.readExponent]
  simp only [Binary64.read, hsign, hdecimal, Option.bind_eq_bind, Option.bind_none]

theorem isTrimmed_toText (d : DateTime) : Text.IsTrimmed d.toText := by
  obtain ⟨rest, hyear⟩ := exists_toText_eq_year d
  obtain ⟨front, hsecond⟩ := exists_toText_eq_second d
  obtain ⟨hne, hdigits⟩ := Text.isNatural_paddedDigits 2 d.writtenSecond
  refine ⟨?_, fun c hc => ?_⟩
  · rw [hyear]
    exact (startsNumber_yearText ..).isBlank_head
  · rw [hsecond, List.getLast?_append_of_ne_nil _ hne] at hc
    exact Text.isBlank_of_isDigit (hdigits c (List.mem_of_getLast? hc))

theorem ofTyped_dateTime (d : DateTime) :
    ofTyped (dateTime d).display = dateTime d.shown := by
  obtain ⟨rest, hyear⟩ := exists_toText_eq_year d
  have hstarts : StartsNumber d.toText := hyear ▸ startsNumber_yearText ..
  have hinteger : Text.readInt64 d.toText = none := hyear ▸ readInt64_yearText ..
  have hreal : Binary64.read d.toText = none := hyear ▸ read_yearText ..
  have hraw : Text.trim (dateTime d).display.toList = d.toText := by
    rw [display, String.toList_ofList, (isTrimmed_toText d).trim_eq]
  rw [hstarts.ofTyped_eq hraw, hinteger, hreal, DateTime.read_toText]
  rfl

/-! ## Texts -/

theorem ofTyped_of_unquote? (h : Value.unquote? (Text.trim raw.toList) = some inner) :
    ofTyped raw = text (String.ofList inner) := by
  simp only [ofTyped, h]

theorem ofTyped_quoted (t : String) : ofTyped ("'" ++ t ++ "'") = text t := by
  have hlist : ("'" ++ t ++ "'").toList = '\'' :: (t.toList ++ ['\'']) := by simp
  have htrimmed : Text.IsTrimmed ('\'' :: (t.toList ++ ['\''])) := by
    have hblank : Text.isBlank '\'' = false := by decide
    refine ⟨by simpa using hblank, ?_⟩
    rw [← List.cons_append, List.getLast?_append_of_ne_nil _ (List.cons_ne_nil _ _)]
    simpa using hblank
  have hraw : Value.unquote? (Text.trim ("'" ++ t ++ "'").toList) = some t.toList := by
    rw [hlist, htrimmed.trim_eq, unquote?_eq_some]
  rw [ofTyped_of_unquote? hraw, String.ofList_toList]

/-- A text is typed between quotes, or as it is. -/
theorem of_ofTyped_eq_text (h : ofTyped raw = text t) :
    Value.unquote? (Text.trim raw.toList) = some t.toList ∨
      t = raw ∧ Value.unquote? (Text.trim raw.toList) = none := by
  cases hquote : Value.unquote? (Text.trim raw.toList) with
  | some inner =>
    rw [ofTyped_of_unquote? hquote] at h
    obtain rfl := Value.text.inj h
    exact .inl (by rw [String.toList_ofList])
  | none =>
    refine .inr ⟨?_, rfl⟩
    simp only [ofTyped, hquote] at h
    split at h
    · cases h
    · split at h
      · cases h
      · split at h
        · cases h
        · split at h
          · cases h
          · exact (Value.text.inj h).symm

end

/-- What is displayed is read when it is typed: an integer with blanks around it, a text between
quotes as it stands, and a date without the fraction of its second, where a leap second before the
end of its minute is read as the second that follows. A text that is read is the typed one as it
is, unless quotes enclose that; then it is what stands between them. -/
theorem ofTyped_display :
    (∀ (n : Int64) (before after : List Char), (∀ c ∈ before ++ after, Text.isBlank c = true) →
      ofTyped (String.ofList before ++ (integer n).display ++ String.ofList after) = integer n) ∧
    (∀ t, ofTyped ("'" ++ t ++ "'") = text t) ∧
    (∀ d, ofTyped (dateTime d).display = dateTime d.shown ∧
      (d.shown = d.wholeSecond ↔ (1000000000 ≤ d.nanosecond → d.second = 59))) ∧
    ∀ s t, ofTyped s = text t →
      Text.trim s.toList = '\'' :: (t.toList ++ ['\'']) ∨
        t = s ∧ ∀ inner, Text.trim s.toList ≠ '\'' :: (inner ++ ['\'']) := by
  refine ⟨fun n before after hblank => ofTyped_integer n hblank, ofTyped_quoted,
    fun d => ⟨ofTyped_dateTime d, DateTime.shown_eq_wholeSecond_iff⟩, fun s t h => ?_⟩
  rcases of_ofTyped_eq_text h with hquote | ⟨hsame, hnone⟩
  · exact .inl (unquote?_eq_some.1 hquote)
  · refine .inr ⟨hsame, fun inner heq => ?_⟩
    rw [unquote?_eq_some.2 heq] at hnone
    cases hnone

/-- The least integer between blanks, a text of quotes and blanks, a leap second of a year before
the first, one in the middle of a minute, and a text that only begins like null. -/
theorem ofTyped_display_extremes :
    let leap : DateTime := ⟨⟨-262143, 12, 31, by decide, by decide, by decide⟩, 23, 59, 59,
      1500000000, by decide, by decide, by decide, by decide⟩
    let early : DateTime := { leap with second := 30, second_lt := by decide }
    ofTyped " \t-9223372036854775808\n" = integer Int64.minValue ∧
      ofTyped "' null' '" = text " null' " ∧
      ofTyped "-262143-12-31 23:59:60" = dateTime leap.wholeSecond ∧
      ofTyped "-262143-12-31 23:59:31" = dateTime early.shown ∧
      ofTyped " null x " = text " null x " ∧
      ∀ inner, Text.trim " null x ".toList ≠ '\'' :: (inner ++ ['\'']) := by
  intro leap early
  obtain ⟨hinteger, hquoted, hdate, htext⟩ := ofTyped_display
  have hnull : ofTyped " null x " = text " null x " := by decide +kernel
  have hleast : " \t-9223372036854775808\n" = String.ofList [' ', '\t'] ++
      (integer Int64.minValue).display ++ String.ofList ['\n'] := by decide +kernel
  have hleap : "-262143-12-31 23:59:60" = (dateTime leap).display := by decide +kernel
  have hearly : "-262143-12-31 23:59:31" = (dateTime early).display := by decide +kernel
  have hquotes : "' null' '" = "'" ++ " null' " ++ "'" := by decide +kernel
  refine ⟨?_, ?_, ?_, ?_, hnull, ?_⟩
  · rw [hleast, hinteger Int64.minValue _ _ (List.all_eq_true.1 (by decide))]
  · rw [hquotes, hquoted]
  · rw [hleap, (hdate leap).1, (hdate leap).2.2 fun _ => rfl]
  · rw [hearly, (hdate early).1]
  · exact ((htext _ _ hnull).resolve_left (by decide +kernel)).2

/-- A third of a second within a leap second of second 30: what is displayed is read as second 31,
neither as the leap second nor as second 30 itself. -/
theorem ofTyped_display_early_leap :
    let early : DateTime := ⟨⟨2024, 1, 2, by decide, by decide, by decide⟩, 12, 0, 30, 1333333333,
      by decide, by decide, by decide, by decide⟩
    (dateTime early).display = "2024-01-02 12:00:31" ∧
      ofTyped "2024-01-02 12:00:31" =
        dateTime { early with
          second := 31, nanosecond := 0, second_lt := by decide, nanosecond_lt := by decide } ∧
      ofTyped (dateTime early).display ≠ dateTime early.wholeSecond ∧
      ofTyped (dateTime early).display ≠
        dateTime { early with nanosecond := 0, nanosecond_lt := by decide } := by
  decide +kernel

end Value
end RecordGraph
