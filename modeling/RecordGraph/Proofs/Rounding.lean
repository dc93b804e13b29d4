import Mathlib.Tactic.NormNum
import Mathlib.Tactic.Positivity
import Mathlib.Tactic.Ring
import RecordGraph.Binary64.Notation

/-!
# Decimals as binary64 numbers

A ratio is rounded by its value alone, and a ratio that is a number of the format stays as it
is. So two decimals of one value are read alike, the shortest decimal of a number reads back,
and the bounds beyond which a wide decimal is not rounded change nothing.
-/
namespace RecordGraph

/-! ## Rounding a ratio -/

section
variable {num den k : ℕ} {negative : Bool} {m : Magnitude}

theorem divEven_mul_right (hk : 0 < k) : divEven (num * k) (den * k) = divEven num den := by
  have hrest : 2 * (num % den * k) = 2 * (num % den) * k := (Nat.mul_assoc ..).symm
  simp only [divEven, Nat.mul_div_mul_right _ _ hk, Nat.mul_mod_mul_right, hrest,
    Nat.mul_lt_mul_right hk]

/-- A whole quotient is not rounded. -/
theorem divEven_mul_self (n : ℕ) (hk : 0 < k) : divEven (n * k) k = n := by
  simp [divEven, hk]

/-- Less than half of one is nothing. -/
theorem divEven_eq_zero (h : 2 * num < den) : divEven num den = 0 := by
  have hlt : num < den := by omega
  rw [divEven, Nat.mod_eq_of_lt hlt, if_pos h, Nat.div_eq_of_lt hlt]

namespace Binary64

theorem ofParts_eq_finite {significand exponent : ℕ} :
    ofParts negative significand exponent = finite negative m ↔
      m.significand = significand ∧ m.exponent = exponent := by
  obtain ⟨s, e, hs, he, hcanonical⟩ := m
  unfold ofParts
  split
  · simp [eq_comm]
  · next hno =>
    refine iff_of_false (by simp) ?_
    rintro ⟨rfl, rfl⟩
    exact hno ⟨hs, he, hcanonical⟩

theorem ofUnits_mul_right (hk : 0 < k) :
    ofUnits negative (num * k) (den * k) = ofUnits negative num den := by
  simp only [ofUnits, Nat.mul_div_mul_right _ _ hk, Nat.mul_right_comm den k,
    divEven_mul_right hk]

/-- The sign has no part in rounding. -/
theorem ofUnits_eq_finite_iff :
    ofUnits negative num den = finite negative m ↔ ofUnits false num den = finite false m := by
  unfold ofUnits
  dsimp only
  split <;> simp only [ofParts_eq_finite]

/-- A rounded ratio is a whole number of steps, and the format has no wider step for it. -/
theorem units_of_ofUnits (h : ofUnits negative num den = finite negative m) :
    ∃ e, e = Nat.log2 (num / den) - 52 ∧ e ≤ m.exponent ∧
      m.units = divEven num (den * 2 ^ e) * 2 ^ e := by
  refine ⟨_, rfl, ?_⟩
  unfold ofUnits at h
  dsimp only [Nat.pow_eq] at h
  split at h
  · next hfull =>
    obtain ⟨hs, he⟩ := ofParts_eq_finite.1 h
    refine ⟨by omega, ?_⟩
    rw [Magnitude.units, hs, he, hfull, Nat.pow_eq, pow_succ']
    norm_num
    ring
  · obtain ⟨hs, he⟩ := ofParts_eq_finite.1 h
    exact ⟨he.ge, by rw [Magnitude.units, hs, he, Nat.pow_eq]⟩

/-- A number of the format is rounded to itself. -/
theorem ofUnits_units (m : Magnitude) : ofUnits negative m.units 1 = finite negative m := by
  have hlt : m.significand < 2 ^ 53 := m.significand_lt
  have hexponent : Nat.log2 m.units - 52 = m.exponent := by
    rw [Magnitude.units, Nat.pow_eq]
    rcases m.canonical with h0 | hle
    · have hlog : Nat.log2 m.significand < 53 := by
        rcases Nat.eq_zero_or_pos m.significand with hs | hs
        · simp [hs]
        · exact (Nat.log2_lt hs.ne').2 hlt
      rw [h0, pow_zero, mul_one]
      omega
    · have hle : 2 ^ 52 ≤ m.significand := hle
      have hlog : Nat.log2 (m.significand * 2 ^ m.exponent) = 52 + m.exponent := by
        have hpos : 0 < m.significand * 2 ^ m.exponent :=
          Nat.mul_pos (by omega) (Nat.two_pow_pos _)
        rw [Nat.log2_eq_iff hpos.ne', Nat.pow_add, Nat.add_right_comm, Nat.pow_add]
        exact ⟨Nat.mul_le_mul_right _ hle, Nat.mul_lt_mul_of_pos_right hlt (Nat.two_pow_pos _)⟩
      omega
  have hquotient : divEven m.units (1 * Nat.pow 2 m.exponent) = m.significand := by
    rw [one_mul, Magnitude.units]
    exact divEven_mul_self _ (Nat.two_pow_pos _)
  simp only [ofUnits, Nat.div_one, hexponent, hquotient]
  exact (if_neg hlt.ne).trans (ofParts_eq_finite.2 ⟨rfl, rfl⟩)

/-- A ratio beyond the largest number is infinite. -/
theorem ofUnits_of_large (hk : 2098 ≤ k) (h : 2 ^ k ≤ num / den) :
    ofUnits negative num den = infinite negative := by
  have hpos : 0 < num / den := (Nat.two_pow_pos _).trans_le h
  have hlog : k ≤ Nat.log2 (num / den) := (Nat.le_log2 hpos.ne').2 h
  unfold ofUnits
  dsimp only
  split <;> exact dif_neg (by omega)

/-- A ratio below half of the smallest number above zero is zero. -/
theorem ofUnits_of_small (h : 2 * num < den) :
    ofUnits negative num den = finite negative .zero := by
  have hquotient : num / den = 0 := Nat.div_eq_of_lt (by omega)
  have hround : divEven num (den * Nat.pow 2 (Nat.log2 0 - 52)) = 0 := by
    simpa using divEven_eq_zero h
  rw [ofUnits, hquotient, hround]
  exact ofParts_eq_finite.2 ⟨rfl, rfl⟩

end Binary64
end

/-! ## Rounding a decimal -/

namespace Magnitude

theorem unitsPerOne_eq {k : ℕ} (hk : k = 1074) : unitsPerOne = 2 ^ k := by
  delta unitsPerOne
  rw [← hk]
  rfl

end Magnitude

open Magnitude

section
variable {n e k : ℕ} {negative : Bool} {m : Magnitude} {d : Decimal}

namespace Binary64

theorem ofDecimal_ofNat :
    ofDecimal negative ⟨n, e⟩ = ofUnits negative (n * 10 ^ e * unitsPerOne) 1 := rfl

theorem ofDecimal_negSucc :
    ofDecimal negative ⟨n, .negSucc e⟩ = ofUnits negative (n * unitsPerOne) (10 ^ (e + 1)) := rfl

theorem ofDecimal_mul_ten (exponent : ℤ) :
    ofDecimal negative ⟨n * 10, exponent⟩ = ofDecimal negative ⟨n, exponent + 1⟩ := by
  match exponent with
  | .ofNat e =>
    have hexponent : Int.ofNat e + 1 = ((e + 1 : ℕ) : ℤ) := rfl
    rw [hexponent, Int.ofNat_eq_natCast, ofDecimal_ofNat, ofDecimal_ofNat, pow_succ', mul_assoc n]
  | .negSucc 0 =>
    calc ofDecimal negative ⟨n * 10, .negSucc 0⟩
      _ = ofUnits negative (n * 10 * unitsPerOne) (10 ^ 1) := ofDecimal_negSucc
      _ = ofUnits negative (n * unitsPerOne * 10) (1 * 10) := by rw [Nat.mul_right_comm, pow_one]
      _ = ofUnits negative (n * unitsPerOne) 1 := ofUnits_mul_right (by decide)
      _ = ofUnits negative (n * 10 ^ 0 * unitsPerOne) 1 := by rw [pow_zero, mul_one]
      _ = ofDecimal negative ⟨n, .negSucc 0 + 1⟩ := (ofDecimal_ofNat (e := 0)).symm
  | .negSucc (e + 1) =>
    have hexponent : Int.negSucc (e + 1) + 1 = Int.negSucc e := by omega
    rw [hexponent, ofDecimal_negSucc, ofDecimal_negSucc, Nat.mul_right_comm, pow_succ _ (e + 1),
      ofUnits_mul_right (by decide)]

/-- Zeros at the end of the digits may as well stand in the exponent. -/
theorem ofDecimal_normalize (d : Decimal) :
    ofDecimal negative d.normalize = ofDecimal negative d := by
  induction d using Decimal.normalize.induct with
  | case1 d h ih =>
    have hdigits : d.digits = d.digits / 10 * 10 := by omega
    rw [Decimal.normalize, dif_pos h, ih, ← ofDecimal_mul_ten, ← hdigits]
  | case2 d h => rw [Decimal.normalize, dif_neg h]

theorem ofDecimal_eq_finite_iff :
    ofDecimal negative d = finite negative m ↔ m.ReadsBack d := by
  unfold ReadsBack ofDecimal
  split <;> exact ofUnits_eq_finite_iff

/-- A whole number that is read is whole: a step of the format divides one, or one divides it. -/
theorem isWhole_of_ofDecimal (h : ofDecimal negative ⟨n, (e : ℤ)⟩ = finite negative m) :
    m.IsWhole := by
  rw [ofDecimal_ofNat] at h
  obtain ⟨x, -, hx, hunits⟩ := units_of_ofUnits h
  suffices hdvd : unitsPerOne ∣ m.units from Nat.mod_eq_zero_of_dvd hdvd
  rcases le_or_gt x 1074 with hle | hlt
  · have hone : unitsPerOne = 2 ^ (1074 - x) * 2 ^ x := by
      rw [← pow_add]
      exact unitsPerOne_eq (by omega)
    have hself : m.units = n * 10 ^ e * unitsPerOne := by
      rw [hunits, one_mul, hone, ← mul_assoc, divEven_mul_self _ (Nat.two_pow_pos _)]
    exact ⟨n * 10 ^ e, by rw [hself, mul_comm]⟩
  · have hone : 2 ^ m.exponent = 2 ^ (m.exponent - 1074) * unitsPerOne := by
      rw [unitsPerOne_eq rfl, ← pow_add]
      congr 1
      omega
    exact ⟨m.significand * 2 ^ (m.exponent - 1074), by
      rw [Magnitude.units, Nat.pow_eq, hone]; ring⟩

/-! ## Wide decimals -/

theorem lt_pow_digitCount (n : ℕ) : n < 10 ^ Text.digitCount n := by
  unfold Text.digitCount
  split
  · next h => simp [h]
  · exact (Nat.length_toDigits_le_iff (by decide) Nat.length_toDigits_pos).1 le_rfl

theorem pow_digitCount_le (hn : n ≠ 0) : 10 ^ (Text.digitCount n - 1) ≤ n := by
  rw [Text.digitCount, if_neg hn]
  by_contra hlt
  rcases Nat.eq_zero_or_pos ((Text.digits n).length - 1) with h0 | hpos
  · rw [h0] at hlt
    omega
  · have hle := (Nat.length_toDigits_le_iff (by decide) hpos).2 (not_le.1 hlt)
    have hlength : 0 < (Text.digits n).length := Nat.length_toDigits_pos
    change (Text.digits n).length ≤ _ at hle
    omega

/-- Powers of two and of ten of about the same size. -/
theorem two_pow_le_ten_pow (k : ℕ) : 2 ^ (93 * k) ≤ 10 ^ (28 * k) := by
  rw [pow_mul, pow_mul]
  exact Nat.pow_le_pow_left (by decide) k

theorem ofDecimal_zero (exponent : ℤ) :
    ofDecimal negative ⟨0, exponent⟩ = finite negative .zero := by
  cases exponent with
  | ofNat e => exact ofUnits_of_small (by simp)
  | negSucc e => exact ofUnits_of_small (by simp)

/-- No number of the format is as large as `10 ^ 310`. -/
theorem ofDecimal_of_large {exponent : ℤ} (hn : n ≠ 0)
    (h : 310 < exponent + Text.digitCount n) :
    ofDecimal negative ⟨n, exponent⟩ = infinite negative := by
  have hdigits := pow_digitCount_le hn
  have hlarge {x : ℕ} (hx : 10 ^ 310 ≤ x) : 2 ^ (93 * 11 + 1 + 1074) ≤ x * unitsPerOne := by
    rw [pow_add, unitsPerOne_eq rfl]
    refine Nat.mul_le_mul_right _ (le_trans ?_ hx)
    calc 2 ^ (93 * 11 + 1)
      _ = 2 ^ (93 * 11) * 2 := pow_succ ..
      _ ≤ 10 ^ (28 * 11) * 10 ^ 2 := Nat.mul_le_mul (two_pow_le_ten_pow 11) (by decide)
      _ ≤ 10 ^ 310 := by rw [← pow_add]
  cases exponent with
  | ofNat e =>
    rw [Int.ofNat_eq_natCast] at h ⊢
    rw [ofDecimal_ofNat]
    refine ofUnits_of_large (k := 93 * 11 + 1 + 1074) (by decide) ?_
    rw [Nat.div_one]
    refine hlarge (le_trans ?_ (Nat.mul_le_mul_right _ hdigits))
    obtain ⟨x, hx⟩ : ∃ x, Text.digitCount n - 1 + e = 310 + x :=
      Nat.exists_eq_add_of_le (by omega)
    rw [← pow_add, hx, pow_add]
    exact Nat.le_mul_of_pos_right _ (by positivity)
  | negSucc e =>
    rw [ofDecimal_negSucc]
    refine ofUnits_of_large (k := 93 * 11 + 1 + 1074) (by decide) ?_
    rw [Nat.le_div_iff_mul_le (by positivity)]
    have hle : 10 ^ 310 * 10 ^ (e + 1) ≤ n := by
      rw [← pow_add]
      exact (Nat.pow_le_pow_right (by decide) (by omega)).trans hdigits
    calc 2 ^ (93 * 11 + 1 + 1074) * 10 ^ (e + 1)
      _ ≤ 10 ^ 310 * unitsPerOne * 10 ^ (e + 1) := Nat.mul_le_mul_right _ (hlarge le_rfl)
      _ = 10 ^ 310 * 10 ^ (e + 1) * unitsPerOne := Nat.mul_right_comm ..
      _ ≤ n * unitsPerOne := Nat.mul_le_mul_right _ hle

/-- All numbers below `10 ^ -330` are nearest to zero. -/
theorem ofDecimal_of_small {exponent : ℤ} (h : exponent + Text.digitCount n < -330) :
    ofDecimal negative ⟨n, exponent⟩ = finite negative .zero := by
  have hdigits := lt_pow_digitCount n
  have hunits : 2 * unitsPerOne ≤ 10 ^ 330 :=
    calc 2 * unitsPerOne
      _ = unitsPerOne * 2 := mul_comm ..
      _ = 2 ^ (93 * 11) * (2 ^ 51 * 2) := by
        rw [unitsPerOne_eq (k := 93 * 11 + 51) rfl, pow_add, mul_assoc]
      _ ≤ 10 ^ (28 * 11) * 10 ^ 22 := Nat.mul_le_mul (two_pow_le_ten_pow 11) (by decide)
      _ ≤ 10 ^ 330 := by rw [← pow_add]
  cases exponent with
  | ofNat e =>
    rw [Int.ofNat_eq_natCast] at h
    omega
  | negSucc e =>
    rw [ofDecimal_negSucc]
    refine ofUnits_of_small ?_
    calc 2 * (n * unitsPerOne)
      _ = n * (2 * unitsPerOne) := Nat.mul_left_comm ..
      _ ≤ n * 10 ^ 330 := Nat.mul_le_mul_left _ hunits
      _ < 10 ^ Text.digitCount n * 10 ^ 330 := Nat.mul_lt_mul_of_pos_right hdigits (by positivity)
      _ = 10 ^ (Text.digitCount n + 330) := (pow_add ..).symm
      _ ≤ 10 ^ (e + 1) := Nat.pow_le_pow_right (by decide) (by omega)

/-- The bounds beyond which a decimal is not rounded change nothing. -/
theorem ofWideDecimal_eq (d : Decimal) : ofWideDecimal negative d = ofDecimal negative d := by
  obtain ⟨n, exponent⟩ := d
  unfold ofWideDecimal
  dsimp only
  split
  · next h =>
    rcases h with rfl | hsmall
    · exact (ofDecimal_zero exponent).symm
    · exact (ofDecimal_of_small hsmall).symm
  · next h =>
    split
    · next hlarge => exact (ofDecimal_of_large (fun hn => h (.inl hn)) hlarge).symm
    · rfl

end Binary64

/-! ## Shortest decimals -/

namespace Magnitude

variable {tie : Tie}

theorem readsBack_exact (m : Magnitude) : m.ReadsBack m.exact := by
  obtain ⟨k, hk⟩ : ∃ k, k = 1073 := ⟨_, rfl⟩
  have hexact : m.exact = ⟨m.units * 5 ^ (k + 1), .negSucc k⟩ := by
    delta exact
    rw [show 1074 = k + 1 by omega, show (-1074 : ℤ) = .negSucc k by omega]
    rfl
  have hten : 5 ^ (k + 1) * unitsPerOne = 10 ^ (k + 1) := by
    rw [unitsPerOne_eq (k := k + 1) (by omega), ← mul_pow]
    norm_num
  calc Binary64.ofDecimal false m.exact
    _ = Binary64.ofUnits false (m.units * 10 ^ (k + 1)) (1 * 10 ^ (k + 1)) := by
      rw [hexact, Binary64.ofDecimal_negSucc, mul_assoc, hten, one_mul]
    _ = .finite false m := by
      rw [Binary64.ofUnits_mul_right (by positivity), Binary64.ofUnits_units]

theorem readsBack_of_onGrid? {exponent : ℤ} (h : m.onGrid? tie exponent = some d) :
    m.ReadsBack d := by
  unfold onGrid? at h
  dsimp only at h
  split at h
  · next hlower =>
    split at h
    · next hupper =>
      obtain rfl := Option.some.inj h
      exact hupper.1
    · obtain rfl := Option.some.inj h
      exact hlower
  · split at h
    · next hupper =>
      obtain rfl := Option.some.inj h
      exact hupper
    · cases h

/-- The shortest decimal of a number is read as this number. -/
theorem readsBack_shortest (m : Magnitude) : m.ReadsBack (m.shortest tie) := by
  unfold shortest
  rw [ReadsBack, Binary64.ofDecimal_normalize]
  cases hfound : (List.range 17).findSome? fun n : ℕ => m.onGrid? tie (m.leadingExponent - n) with
  | none => exact m.readsBack_exact
  | some d =>
    obtain ⟨n, -, hn⟩ := List.exists_of_findSome?_eq_some hfound
    exact readsBack_of_onGrid? hn

end Magnitude
end
end RecordGraph
