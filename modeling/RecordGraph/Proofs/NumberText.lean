import RecordGraph.Proofs.Rounding

/-!
# Numbers as text

A number that was written is read back: the digits of a natural number, with zeros in front of
them or not, an integer with its sign, and a binary64 number with a point.
-/
namespace RecordGraph

namespace Text

/-! ## Digits -/

/-- Digits and nothing else, at least one. -/
def IsNatural (s : List Char) : Prop := s ≠ [] ∧ ∀ c ∈ s, c.isDigit = true

section
variable {s rest : List Char} {n k : ℕ} {negative : Bool}

theorem isNatural_digits (n : ℕ) : IsNatural (digits n) :=
  ⟨Nat.toDigits_ne_nil, fun _ => Nat.isDigit_of_mem_toDigits (by decide) (by decide)⟩

theorem isNatural_zeros (h : IsNatural s) : IsNatural (List.replicate k '0' ++ s) := by
  refine ⟨List.append_ne_nil_of_right_ne_nil _ h.1, List.forall_mem_append.2 ⟨fun c hc => ?_, h.2⟩⟩
  rw [(List.mem_replicate.1 hc).2]
  decide

/-- Zeros in front do not count. -/
theorem ofDigits_zeros : ofDigits (List.replicate k '0' ++ s) = ofDigits s := by
  simp [ofDigits, Nat.ofDigitChars_append, Nat.ofDigitChars_replicate_zero]

theorem ofDigits_append (s t : List Char) :
    ofDigits (s ++ t) = ofDigits s * 10 ^ t.length + ofDigits t := by
  rw [ofDigits, Nat.ofDigitChars_append, Nat.ofDigitChars_eq_ofDigitChars_zero, mul_comm]
  rfl

theorem readNat_of_isNatural (h : IsNatural s) : readNat s = some (ofDigits s) :=
  if_pos ⟨h.1, List.all_eq_true.2 h.2⟩

/-- Digits end where something else follows. -/
theorem spanDigits_append (hs : ∀ c ∈ s, c.isDigit = true)
    (hrest : ∀ c ∈ rest.head?, c.isDigit = false) : spanDigits (s ++ rest) = (s, rest) := by
  rw [spanDigits, List.takeWhile_append_of_pos hs, List.dropWhile_append_of_pos hs]
  cases rest with
  | nil => simp
  | cons c rest => simp [hrest c rfl]

/-! ## Signs -/

/-- A text that begins with digits begins with nothing else. -/
theorem IsNatural.append_ne_cons {t : List Char} {c : Char} (h : IsNatural s)
    (hc : c.isDigit = false) : s ++ rest ≠ c :: t := by
  obtain ⟨d, s, rfl⟩ := List.exists_cons_of_ne_nil h.1
  intro heq
  have hd := h.2 d List.mem_cons_self
  rw [(List.cons.inj heq).1, hc] at hd
  cases hd

theorem splitSign_of_isNatural (h : IsNatural s) : splitSign (s ++ rest) = (false, s ++ rest) := by
  unfold splitSign
  split
  · next heq => exact absurd heq (h.append_ne_cons (by decide))
  · next heq => exact absurd heq (h.append_ne_cons (by decide))
  · rfl

theorem splitSign_signed (h : IsNatural s) :
    splitSign (Binary64.signed negative (s ++ rest)) = (negative, s ++ rest) := by
  cases negative with
  | false => exact splitSign_of_isNatural h
  | true => rfl

theorem signedDigits_eq (n : ℤ) :
    signedDigits n = Binary64.signed (decide (n < 0)) (digits n.natAbs) := by
  unfold signedDigits Binary64.signed
  simp only [decide_eq_true_eq]

/-- An integer is read back. -/
theorem readInt64_signedDigits (n : Int64) : readInt64 (signedDigits n.toInt) = some n := by
  have hnatural := isNatural_digits n.toInt.natAbs
  have hsign : splitSign (Binary64.signed (decide (n.toInt < 0)) (digits n.toInt.natAbs ++ [])) =
      (decide (n.toInt < 0), digits n.toInt.natAbs ++ []) := splitSign_signed hnatural
  have hvalue : (if decide (n.toInt < 0) = true then -(n.toInt.natAbs : ℤ) else n.toInt.natAbs) =
      n.toInt := by
    simp only [decide_eq_true_eq]
    omega
  rw [List.append_nil, ← signedDigits_eq] at hsign
  simp only [readInt64, hsign, readNat_of_isNatural hnatural, ofDigits_digits, Option.bind_eq_bind,
    Option.bind_some, hvalue]
  rw [if_pos ⟨n.minValue_le_toInt, n.toInt_le⟩, Int64.ofInt_toInt]

end
end Text

/-! ## Points -/

namespace Binary64

variable {whole fraction : List Char} {negative : Bool} {m : Magnitude}

/-- A number with a point is the decimal of all its digits. -/
theorem read_point (hwhole : Text.IsNatural whole) (hfraction : Text.IsNatural fraction) :
    read (signed negative (whole ++ '.' :: fraction)) =
      some (ofDecimal negative ⟨Text.ofDigits (whole ++ fraction), -fraction.length⟩) := by
  have hspan : Text.spanDigits (whole ++ '.' :: fraction) = (whole, '.' :: fraction) :=
    Text.spanDigits_append hwhole.2 (by simp)
  have hspan' : Text.spanDigits fraction = (fraction, []) := by
    have hend : ∀ c ∈ ([] : List Char).head?, c.isDigit = false := by simp
    have hspan := Text.spanDigits_append hfraction.2 hend
    rwa [List.append_nil] at hspan
  have hdecimal : readDecimal (whole ++ '.' :: fraction) =
      some ⟨Text.ofDigits (whole ++ fraction), -fraction.length⟩ := by
    simp [readDecimal, hspan, hspan', hwhole.1, readExponent]
  simp only [read, Text.splitSign_signed hwhole, hdecimal, Option.bind_eq_bind, Option.bind_some,
    ofWideDecimal_eq]

theorem readsBack_whole (h : m.IsWhole) :
    m.ReadsBack ⟨m.units / Magnitude.unitsPerOne * 10, -1⟩ := by
  have hunits : m.units / Magnitude.unitsPerOne * 10 ^ 0 * Magnitude.unitsPerOne = m.units := by
    rw [pow_zero, mul_one]
    exact Nat.div_mul_cancel (Nat.dvd_of_mod_eq_zero h)
  calc ofDecimal false ⟨m.units / Magnitude.unitsPerOne * 10, -1⟩
    _ = ofDecimal false ⟨m.units / Magnitude.unitsPerOne, ((0 : ℕ) : ℤ)⟩ := ofDecimal_mul_ten _
    _ = ofUnits false m.units 1 := by rw [ofDecimal_ofNat, hunits]
    _ = finite false m := ofUnits_units m

/-- The text of a number has a point with digits before and behind it, and these read back. -/
theorem exists_point (negative : Bool) (m : Magnitude) :
    ∃ whole fraction, Text.IsNatural whole ∧ Text.IsNatural fraction ∧
      pointed negative m = signed negative (whole ++ '.' :: fraction) ∧
      m.ReadsBack ⟨Text.ofDigits (whole ++ fraction), -fraction.length⟩ := by
  unfold pointed
  split
  · next hwhole =>
    refine ⟨Text.digits (m.units / Magnitude.unitsPerOne), ['0'], Text.isNatural_digits _,
      Text.isNatural_digits 0, rfl, ?_⟩
    rw [Text.ofDigits_append, Text.ofDigits_digits]
    exact readsBack_whole hwhole
  · next hwhole =>
    have hreads : m.ReadsBack (m.shortest .upper) := m.readsBack_shortest
    generalize m.shortest .upper = d at hreads ⊢
    obtain ⟨n, exponent⟩ := d
    cases exponent with
    | ofNat e => exact absurd (isWhole_of_ofDecimal hreads) hwhole
    | negSucc e =>
      obtain ⟨hne, hdigits⟩ := Text.isNatural_digits n
      unfold Decimal.positional
      dsimp only
      split
      · next hlt =>
        have hlength :
            ((Text.digits n).drop ((Text.digits n).length - (e + 1))).length = e + 1 := by
          rw [List.length_drop]
          omega
        refine ⟨_, _, ⟨?_, fun c hc => hdigits c (List.mem_of_mem_take hc)⟩,
          ⟨?_, fun c hc => hdigits c (List.mem_of_mem_drop hc)⟩, rfl, ?_⟩
        · simpa using ⟨by omega, hne⟩
        · exact List.ne_nil_of_length_eq_add_one hlength
        · rw [List.take_append_drop, Text.ofDigits_digits, hlength]
          exact hreads
      · next hge =>
        have hlength : (List.replicate (e + 1 - (Text.digits n).length) '0' ++
            Text.digits n).length = e + 1 := by
          rw [List.length_append, List.length_replicate]
          omega
        refine ⟨['0'], _, Text.isNatural_digits 0, Text.isNatural_zeros ⟨hne, hdigits⟩, rfl, ?_⟩
        have hzero : Text.ofDigits ['0'] = 0 := by decide
        rw [Text.ofDigits_append, hzero, zero_mul, zero_add, Text.ofDigits_zeros,
          Text.ofDigits_digits, hlength]
        exact hreads

/-- A number that is written with a point is read back. -/
theorem read_pointed (negative : Bool) (m : Magnitude) :
    read (pointed negative m) = some (finite negative m) := by
  obtain ⟨whole, fraction, hwhole, hfraction, htext, hreads⟩ := exists_point negative m
  rw [htext, read_point hwhole hfraction, ofDecimal_eq_finite_iff.2 hreads]

end Binary64
end RecordGraph
