import LutLogic.Proofs.TruthTable.Sensitivity
import LutLogic.TruthTable.Literal

/-!
# Reading the literal of a table

Digits are written from the last one on and read from the first one on. `readDigits_writeDigits`
joins the two: after the written digits the number that was read so far has moved up by their
places, and the written value stands in these places. A literal has as many digits as its table
needs (`value_lt_base_pow`) and no more than fit 64 bits, so it is read back in either radix
(`readLiteral_literalChars`).
-/

namespace LutLogic

/-- A hexadecimal digit has the value that it was written for. -/
theorem hexDigitValue?_hexDigit : ∀ d < 16, hexDigitValue? (hexDigit d) = some d := by
  decide

/-- A hexadecimal digit takes one byte. -/
theorem utf8Size_hexDigit : ∀ d < 16, (hexDigit d).utf8Size = 1 := by
  decide

/-- A width has a power of two of rows, up to 64. -/
theorem Width.rows_cases (w : Width) :
    w.rows = 2 ∨ w.rows = 4 ∨ w.rows = 8 ∨ w.rows = 16 ∨ w.rows = 32 ∨ w.rows = 64 := by
  have h1 : 1 ≤ w.inputs := w.min_le
  have h6 : w.inputs ≤ 6 := w.le_max
  have hn : w.inputs = 1 ∨ w.inputs = 2 ∨ w.inputs = 3 ∨ w.inputs = 4 ∨ w.inputs = 5 ∨
      w.inputs = 6 := by omega
  rw [w.rows_eq]
  rcases hn with h | h | h | h | h | h <;> rw [h] <;> decide

namespace Radix

/-! ## Digits -/

/-- A radix has at most sixteen digits, and at least one. -/
theorem base_bounds (r : Radix) : 0 < r.base ∧ r.base ≤ 16 := by
  cases r <;> decide

/-- A digit of a radix is read with the value that it was written for. -/
theorem digitValue?_hexDigit (r : Radix) {d : Nat} (hd : d < r.base) :
    r.digitValue? (hexDigit d) = some d := by
  have h16 : d < 16 := Nat.lt_of_lt_of_le hd r.base_bounds.2
  rw [digitValue?, hexDigitValue?_hexDigit d h16, Option.filter_some, decide_eq_true hd, if_pos rfl]

/-- As many digits are written as asked for, of one byte each. -/
theorem byteCount_writeDigits (r : Radix) (count value : Nat) :
    Text.byteCount (r.writeDigits count value) = count := by
  induction count generalizing value with
  | zero => rfl
  | succ count ih =>
    have h16 : value % r.base < 16 :=
      Nat.lt_of_lt_of_le (Nat.mod_lt value r.base_bounds.1) r.base_bounds.2
    rw [writeDigits, Text.byteCount_append, ih, Text.byteCount, Text.byteCount,
      utf8Size_hexDigit _ h16]

/-- Written digits are read as the last digits of their value, below what was read so far. -/
theorem readDigits_writeDigits (r : Radix) (pos acc count value : Nat) (cs : List Char) :
    r.readDigits pos acc (r.writeDigits count value ++ cs) =
      r.readDigits (pos + count) (acc * r.base ^ count + value % r.base ^ count) cs := by
  induction count generalizing value cs with
  | zero => simp [writeDigits, Nat.mod_one]
  | succ count ih =>
    have hd : value % r.base < r.base := Nat.mod_lt value r.base_bounds.1
    have hsize : (hexDigit (value % r.base)).utf8Size = 1 :=
      utf8Size_hexDigit _ (Nat.lt_of_lt_of_le hd r.base_bounds.2)
    -- One digit more moves everything up by one place.
    have hvalue : (acc * r.base ^ count + value / r.base % r.base ^ count) * r.base +
        value % r.base = acc * r.base ^ (count + 1) + value % r.base ^ (count + 1) := by
      rw [Nat.pow_succ, Nat.mul_comm (r.base ^ count) r.base, Nat.mod_mul, Nat.add_mul,
        Nat.mul_assoc, Nat.mul_comm (r.base ^ count) r.base, Nat.mul_comm (_ % _) r.base]
      omega
    rw [writeDigits, List.append_assoc, ih, List.singleton_append, readDigits,
      r.digitValue?_hexDigit hd]
    dsimp only
    rw [hsize, hvalue, Nat.add_assoc]

/-! ## Literals -/

/-- Every table is written with a digit, and with no more digits than fit 64 bits. -/
theorem digitCount_bounds (r : Radix) (w : Width) :
    0 < r.digitCount w ∧ r.digitCount w ≤ r.capacity := by
  have hrows := w.rows_cases
  cases r with
  | hex =>
    simp only [digitCount, capacity]
    omega
  | binary =>
    simp only [digitCount, capacity]
    omega

/-- The digits of a table hold its value. -/
theorem value_lt_base_pow (t : TruthTable) (r : Radix) :
    t.value < r.base ^ r.digitCount t.width := by
  refine Nat.lt_of_lt_of_le t.value_lt_two_pow ?_
  cases r with
  | hex =>
    have hrows : t.width.rows ≤ 4 * max (t.width.rows / 4) 1 := by
      have := t.width.rows_cases
      omega
    calc 2 ^ t.width.rows ≤ 2 ^ (4 * max (t.width.rows / 4) 1) :=
          Nat.pow_le_pow_right (by decide) hrows
      _ = 16 ^ max (t.width.rows / 4) 1 := Nat.pow_mul 2 4 _
  | binary => exact Nat.le_refl _

/-- A literal announces its radix. -/
theorem ofMark?_mark (r : Radix) (digits : List Char) :
    ofMark? ('0' :: r.mark :: digits) = some (r, digits) := by
  cases r <;> rfl

/-- A radix is announced by its mark alone. -/
theorem ofMark?_eq_some_iff {text : List Char} {r : Radix} {digits : List Char} :
    ofMark? text = some (r, digits) ↔ text = '0' :: r.mark :: digits := by
  constructor
  · intro h
    unfold ofMark? at h
    split at h
    · cases h; rfl
    · cases h; rfl
    · cases h
  · rintro rfl
    exact ofMark?_mark r digits

/-- A value is written as a literal exactly if it starts with one of the two marks. -/
theorem isLiteral_iff {text : List Char} :
    isLiteral text = true ↔ ['0', 'x'] <+: text ∨ ['0', 'b'] <+: text := by
  rw [isLiteral, Option.isSome_iff_exists]
  constructor
  · rintro ⟨⟨r, digits⟩, h⟩
    have htext := ofMark?_eq_some_iff.mp h
    cases r with
    | hex => exact .inl ⟨digits, htext.symm⟩
    | binary => exact .inr ⟨digits, htext.symm⟩
  · rintro (⟨digits, rfl⟩ | ⟨digits, rfl⟩)
    · exact ⟨(.hex, digits), rfl⟩
    · exact ⟨(.binary, digits), rfl⟩

/-- A literal is read as the value of its table. -/
theorem readLiteral_literalChars (t : TruthTable) (r : Radix) :
    readLiteral (t.literalChars r) = .ok t.value := by
  obtain ⟨hpos, hcapacity⟩ := r.digitCount_bounds t.width
  have hbytes := r.byteCount_writeDigits (r.digitCount t.width) t.value
  have hne : r.writeDigits (r.digitCount t.width) t.value ≠ [] := by
    intro hnil
    rw [hnil, Text.byteCount] at hbytes
    omega
  have hread := r.readDigits_writeDigits 2 0 (r.digitCount t.width) t.value []
  rw [List.append_nil, Nat.zero_mul, Nat.zero_add, Nat.mod_eq_of_lt (value_lt_base_pow t r),
    readDigits] at hread
  rw [readLiteral, TruthTable.literalChars, ofMark?_mark]
  dsimp only
  rw [if_neg hne, hbytes, if_neg (Nat.not_lt.mpr hcapacity), hread]

end Radix

namespace TruthTable

/-- A table is that of its value. -/
theorem ofValue_value (t : TruthTable) : ofValue t.value t.width = t := by
  refine ext_bit rfl fun r hr => ?_
  have hin : r < t.width.rows := hr
  rw [bit_ofValue, decide_eq_true hin, Bool.true_and, bit]

/-- A literal is one. -/
theorem isLiteral_literalChars (t : TruthTable) (r : Radix) :
    isLiteral (t.literalChars r) = true := by
  rw [isLiteral, literalChars, Radix.ofMark?_mark]
  rfl

/-- A literal is read at a width with this width. -/
theorem width_of_readLiteral {text : List Char} {w : Width} {t : TruthTable}
    (h : readLiteral text w = .ok t) : t.width = w := by
  obtain ⟨value, -, rfl⟩ := map_eq_ok_iff.mp h
  rfl

/-- At the number of inputs of a width a literal is read at this width. -/
theorem ofLiteralAt_inputs (text : String) (w : Width) :
    ofLiteralAt text w.inputs = ofLiteral text w := by
  rw [ofLiteralAt, Width.ofNat_inputs]
  rfl

/-- A text is a literal of a table, its count of inputs judged first, exactly if its characters
are. -/
theorem ofLiteralAt_inputs_eq_ok_iff {text : String} {w : Width} {t : TruthTable} :
    ofLiteralAt text w.inputs = .ok t ↔ readLiteral text.toList w = .ok t := by
  rw [ofLiteralAt_inputs, ofLiteral, Fault.within_eq_ok_iff]

/-- A literal is read as its table at the width of the table. -/
theorem readLiteral_literalChars (t : TruthTable) (r : Radix) :
    readLiteral (t.literalChars r) t.width = .ok t := by
  rw [readLiteral, Radix.readLiteral_literalChars]
  exact congrArg Except.ok t.ofValue_value

/-- The literal of a table is read as this table at its number of inputs. -/
theorem ofLiteralAt_literal (t : TruthTable) (r : Radix) :
    ofLiteralAt (t.literal r) t.width.inputs = .ok t := by
  rw [ofLiteralAt_inputs_eq_ok_iff, literal, String.toList_ofList]
  exact t.readLiteral_literalChars r

end TruthTable

end LutLogic
