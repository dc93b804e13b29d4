import RecordGraph.Proofs.NumberText
import RecordGraph.Proofs.SqlTokens
import RecordGraph.Sql.Reader

/-!
# Reading literals

A literal says all of what is stored of a value: it is read as that, and values that are stored
differently have different literals. A real keeps its point, so that no integer is read from it.
-/
namespace RecordGraph

/-- Only dates change their form when they are stored, and reals without a literal. -/
theorem Value.stored_eq {v : Value} (hv : v.IsWritable) :
    v.stored = v ∨ ∃ d, v = .dateTime d ∧ v.stored = .text (String.ofList d.toText) := by
  cases v with
  | real x =>
    cases x with
    | finite negative m => exact .inl rfl
    | nan => exact hv.elim
    | infinite negative => exact hv.elim
  | dateTime d => exact .inr ⟨d, rfl, rfl⟩
  | null => exact .inl rfl
  | integer n => exact .inl rfl
  | text s => exact .inl rfl
  | blob bytes => exact .inl rfl

namespace Sql

variable {s : List Char}

/-! ## Quoted literals -/

theorem readWholeQuoted_double (s : List Char) :
    readWholeQuoted (double '\'' s ++ ['\'']) = some s := by
  rw [readWholeQuoted, readQuoted_double (by simp), Option.bind_some]
  exact if_pos rfl

theorem readLiteral_enclose (s : List Char) :
    readLiteral (enclose '\'' s) = some (.text (String.ofList s)) := by
  rw [enclose, readLiteral, readWholeQuoted_double, Option.map_some]

theorem hexValue?_hexDigit {n : ℕ} (hn : n < 16) : hexValue? (hexDigit n) = some n := by
  have hall : ∀ n < 16, hexValue? (hexDigit n) = some n := by decide
  exact hall n hn

theorem readBytes_hexBytes (bytes : List UInt8) :
    readBytes (bytes.flatMap (Value.hexByte hexDigit)) = some bytes := by
  induction bytes with
  | nil => rfl
  | cons b bytes ih =>
    have hlt := b.toNat_lt
    have hbyte : UInt8.ofNat (b.toNat / 16 * 16 + b.toNat % 16) = b := by
      rw [Nat.div_add_mod', UInt8.ofNat_toNat]
    simp only [List.flatMap_cons, Value.hexByte, List.cons_append, List.nil_append, readBytes,
      hexValue?_hexDigit (by omega : b.toNat / 16 < 16),
      hexValue?_hexDigit (by omega : b.toNat % 16 < 16), ih, Option.bind_eq_bind,
      Option.bind_some, hbyte, Option.pure_def]

/-! ## Numbers -/

/-- A number is read neither as a quoted text nor as null. -/
theorem readLiteral_of_isNumber (h : IsNumber s) : readLiteral s = readNumber s := by
  obtain ⟨c, s, rfl⟩ := List.exists_cons_of_ne_nil h.1
  have hc : isNumberChar c = true := h.2 c List.mem_cons_self
  have hquote : c ≠ '\'' := ne_of_kind hc (by decide)
  have hblob : c ≠ 'X' := ne_of_kind hc (by decide)
  have hnull : c ≠ 'N' := ne_of_kind hc (by decide)
  unfold readLiteral
  split
  · next heq => exact absurd (List.cons.inj heq).1 hquote
  · next heq => exact absurd (List.cons.inj heq).1 hblob
  · exact if_neg fun heq => hnull (List.cons.inj heq).1

theorem point_notMem_signedDigits (n : ℤ) : '.' ∉ Text.signedDigits n := by
  have hdigits : '.' ∉ Text.digits n.natAbs := by
    intro hmem
    cases (Text.isNatural_digits _).2 _ hmem
  unfold Text.signedDigits
  split
  · simpa using hdigits
  · exact hdigits

theorem readNumber_signedDigits (n : Int64) :
    readNumber (Text.signedDigits n.toInt) = some (.integer n) := by
  rw [readNumber, if_neg (point_notMem_signedDigits _), Text.readInt64_signedDigits,
    Option.map_some]

theorem point_mem_pointed (negative : Bool) (m : Magnitude) :
    '.' ∈ Binary64.pointed negative m := by
  obtain ⟨whole, fraction, -, -, htext, -⟩ := Binary64.exists_point negative m
  rw [htext]
  cases negative <;> simp [Binary64.signed]

theorem readNumber_pointed (negative : Bool) (m : Magnitude) :
    readNumber (Binary64.pointed negative m) = some (.real (.finite negative m)) := by
  rw [readNumber, if_pos (point_mem_pointed negative m), Binary64.read_pointed, Option.map_some]

/-! ## Values -/

/-- The stored form of a value is read from its literal. -/
theorem readLiteral_literal (v : Value) : readLiteral (literal v) = some v.stored := by
  cases v with
  | null => rfl
  | integer n =>
    exact (readLiteral_of_isNumber (isNumber_signedDigits _)).trans (readNumber_signedDigits n)
  | real x =>
    cases x with
    | finite negative m =>
      exact (readLiteral_of_isNumber (isNumber_pointed negative m)).trans
        (readNumber_pointed negative m)
    | nan => rfl
    | infinite negative => rfl
  | text s => rw [literal, readLiteral_enclose, String.ofList_toList]; rfl
  | blob bytes =>
    have hquoted : readWholeQuoted (bytes.flatMap (Value.hexByte hexDigit) ++ ['\'']) =
        some (bytes.flatMap (Value.hexByte hexDigit)) := by
      have hdouble := readWholeQuoted_double (bytes.flatMap (Value.hexByte hexDigit))
      rwa [double_of_notMem (quote_notMem_hexBytes bytes)] at hdouble
    rw [literal, readLiteral, hquoted, Option.bind_some, readBytes_hexBytes]
    rfl
  | dateTime d => exact readLiteral_enclose d.toText

/-- What is not stored has no part in a literal. -/
theorem literal_stored (v : Value) : literal v.stored = literal v := by
  cases v with
  | real x => cases x <;> rfl
  | dateTime d => simp [Value.stored, literal]
  | null => rfl
  | integer n => rfl
  | text s => rfl
  | blob bytes => rfl

/-- The literal of a value that can be written is read as the value, or as the text of a date.
A real has a point with digits on both sides of it. Two values have the same literal exactly if
they are stored alike. -/
theorem readLiteral_quoteLiteral {v : Value} (hv : v.IsWritable) :
    readLiteral (quoteLiteral v).toList = some v.stored ∧
    (v.stored = v ∨ ∃ d, v = .dateTime d ∧ v.stored = .text (String.ofList d.toText)) ∧
    (∀ x, v = .real x → ∃ negative whole fraction, Text.IsNatural whole ∧
      Text.IsNatural fraction ∧
      (quoteLiteral v).toList = Binary64.signed negative (whole ++ '.' :: fraction)) ∧
    ∀ w : Value, w.IsWritable → (quoteLiteral w = quoteLiteral v ↔ w.stored = v.stored) := by
  have hread (w : Value) : readLiteral (quoteLiteral w).toList = some w.stored := by
    rw [quoteLiteral, String.toList_ofList, readLiteral_literal]
  refine ⟨hread v, Value.stored_eq hv, ?_, fun w _ => ⟨fun hsame => ?_, fun hstored => ?_⟩⟩
  · rintro x rfl
    cases x with
    | finite negative m =>
      obtain ⟨whole, fraction, hwhole, hfraction, htext, -⟩ := Binary64.exists_point negative m
      rw [quoteLiteral, String.toList_ofList]
      exact ⟨negative, whole, fraction, hwhole, hfraction, htext⟩
    | nan => exact hv.elim
    | infinite negative => exact hv.elim
  · have hsame' := hread w
    rw [hsame, hread v] at hsame'
    exact (Option.some.inj hsame').symm
  · rw [quoteLiteral, quoteLiteral, ← literal_stored w, hstored, literal_stored]

/-- The largest number is read back, and minus zero is no other zero. -/
theorem readLiteral_quoteLiteral_largest :
    let largest : Value := .real (.ofParts false (Nat.pow 2 53 - 1) 2045)
    let minusZero : Value := .real (.finite true .zero)
    largest.IsWritable ∧ minusZero.IsWritable ∧
      readLiteral (quoteLiteral largest).toList = some largest ∧
      readLiteral (quoteLiteral minusZero).toList = some minusZero ∧
      quoteLiteral (.integer 0) ≠ quoteLiteral minusZero ∧
      quoteLiteral (.real (.finite false .zero)) ≠ quoteLiteral minusZero ∧
      quoteLiteral (.text "-0.0") ≠ quoteLiteral minusZero := by
  intro largest minusZero
  have hlargest : largest.IsWritable := by decide
  have hzero : minusZero.IsWritable := by decide
  obtain ⟨hread, -, -, hsame⟩ := readLiteral_quoteLiteral hzero
  have hdiffers (w : Value) (hw : w.IsWritable) (hstored : w.stored ≠ minusZero.stored) :
      quoteLiteral w ≠ quoteLiteral minusZero := fun heq => hstored ((hsame w hw).1 heq)
  exact ⟨hlargest, hzero, (readLiteral_quoteLiteral hlargest).1, hread,
    hdiffers _ trivial (by decide), hdiffers _ trivial (by decide), hdiffers _ trivial (by decide)⟩

end Sql
end RecordGraph
