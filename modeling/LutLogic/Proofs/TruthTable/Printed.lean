import LutLogic.Json.Form
import LutLogic.Proofs.TruthTable.Numeral
import Mathlib.Data.List.Induction

/-!
# Printed literals

A table is printed in one way in each radix: `0x` with one digit in upper case for every four rows,
but at least one, or `0b` with one digit for every row. `IsCanonical` says of a text that it has
this form, without the printer, and the printed literal is the one canonical numeral of the value
(`TruthTable.literal_eq_iff`). The printer writes the last digit behind all others, so the induction
is on the last digit (`Radix.writeDigits_of_spells`): digits of upper case that spell a number are
those that are written for it.

A canonical text is printed again as it is if its number has no bit above the last row. There is no
room for such a bit, except in one hexadecimal digit for the two rows of one input.
-/

namespace LutLogic

/-- A text has the form in which tables of width `w` are printed. -/
inductive IsCanonical (w : Width) : Radix → String → Prop where
  /-- Hexadecimal digits in upper case, one for every four rows and at least one. -/
  | hex (digits : String) (length : digits.length = max 1 (2 ^ w.inputs / 4))
    (chars : ∀ c ∈ digits.toList, c ∈ upperDigits) : IsCanonical w .hex ("0x" ++ digits)
  /-- Binary digits, one for every row. -/
  | binary (digits : String) (length : digits.length = 2 ^ w.inputs)
    (chars : ∀ c ∈ digits.toList, c = '0' ∨ c = '1') : IsCanonical w .binary ("0b" ++ digits)

/-! ## Digits in upper case -/

/-- The first digits in upper case are the characters written for the values below the base. -/
theorem mem_take_upperDigits_iff {base : Nat} {c : Char} :
    c ∈ upperDigits.take base ↔ ∃ d < base, upperDigits[d]? = some c := by
  rw [List.mem_iff_getElem?]
  refine exists_congr fun d => ?_
  rw [List.getElem?_take]
  split <;> simp_all

/-- The digits in upper case are the digits that are written, in their order. -/
theorem getElem?_upperDigits : ∀ d < 16, upperDigits[d]? = some (hexDigit d) := by
  decide

/-- A digit in upper case is the one that is written for its value. -/
theorem IsDigit.hexDigit_eq {base : Nat} {c : Char} {d : Nat} (h : IsDigit base c d)
    (hupper : c ∈ upperDigits) : hexDigit d = c := by
  obtain ⟨d', hd'⟩ := List.mem_iff_getElem?.mp hupper
  -- The value of a character does not depend on the case in which it was looked up.
  have hvalue : hexDigitValue? c = some d' := hexDigitValue?_eq_some_iff.mpr (.inl hd')
  rw [hexDigitValue?_eq_some_iff.mpr h.2] at hvalue
  cases hvalue
  have hd : d < 16 := (List.getElem?_eq_some_iff.mp hd').1
  rw [getElem?_upperDigits d hd] at hd'
  exact Option.some.inj hd'

/-- The last digit stands in the lowest place. -/
theorem Spells.exists_last {base value : Nat} {cs : List Char} {c : Char}
    (h : Spells base (cs ++ [c]) value) :
    ∃ rest d, Spells base cs rest ∧ IsDigit base c d ∧ value = rest * base + d := by
  induction cs generalizing value with
  | nil =>
    obtain ⟨d, rest, hd, hrest, rfl⟩ := spells_cons_iff.mp h
    obtain rfl := spells_nil_iff.mp hrest
    exact ⟨0, d, spells_nil_iff.mpr rfl, hd, by simp⟩
  | cons c' cs ih =>
    obtain ⟨d', rest', hd', hrest', rfl⟩ := spells_cons_iff.mp h
    obtain ⟨rest, d, hrest, hd, rfl⟩ := ih hrest'
    refine ⟨_, d, spells_cons_iff.mpr ⟨d', rest, hd', hrest, rfl⟩, hd, ?_⟩
    have hlength : (cs ++ [c]).length = cs.length + 1 := by
      rw [List.length_append, List.length_singleton]
    calc d' * base ^ (cs ++ [c]).length + (rest * base + d)
        = d' * (base ^ cs.length * base) + (rest * base + d) := by rw [hlength, Nat.pow_succ]
      _ = (d' * base ^ cs.length + rest) * base + d := by
        rw [Nat.add_mul, Nat.mul_assoc, Nat.add_assoc]

/-- Digits below the base spell a number. -/
theorem exists_spells {base : Nat} {cs : List Char}
    (h : ∀ c ∈ cs, c ∈ upperDigits.take base) : ∃ value, Spells base cs value := by
  induction cs with
  | nil => exact ⟨0, spells_nil_iff.mpr rfl⟩
  | cons c cs ih =>
    obtain ⟨rest, hrest⟩ := ih fun c' hc' => h c' (List.mem_cons_of_mem c hc')
    obtain ⟨d, hd, hc⟩ := mem_take_upperDigits_iff.mp (h c List.mem_cons_self)
    exact ⟨_, spells_cons_iff.mpr ⟨d, rest, ⟨hd, .inl hc⟩, hrest, rfl⟩⟩

namespace Radix

/-- Digits in upper case that spell a number are the digits that are written for it. -/
theorem writeDigits_of_spells {r : Radix} {cs : List Char} {value : Nat}
    (h : Spells r.base cs value) (hupper : ∀ c ∈ cs, c ∈ upperDigits) :
    r.writeDigits cs.length value = cs := by
  induction cs using List.reverseRecOn generalizing value with
  | nil => rfl
  | append_singleton cs c ih =>
    obtain ⟨rest, d, hrest, hd, rfl⟩ := h.exists_last
    have hdiv : (rest * r.base + d) / r.base = rest := by
      rw [Nat.mul_comm, Nat.mul_add_div r.base_bounds.1, Nat.div_eq_of_lt hd.1, Nat.add_zero]
    have hmod : (rest * r.base + d) % r.base = d := by
      rw [Nat.mul_comm, Nat.mul_add_mod, Nat.mod_eq_of_lt hd.1]
    have hcs := ih hrest fun c' hc' => hupper c' (List.mem_append_left [c] hc')
    have hc := hd.hexDigit_eq (hupper c (List.mem_append_right cs (List.mem_singleton_self c)))
    rw [List.length_append, List.length_singleton, writeDigits, hdiv, hmod, hcs, hc]

/-- Written digits spell the number that they were written for, without the places above them. -/
theorem spells_writeDigits (r : Radix) (count value : Nat) :
    Spells r.base (r.writeDigits count value) (value % r.base ^ count) := by
  have hread := r.readDigits_writeDigits 0 0 count value []
  rw [List.append_nil, Nat.zero_mul, Nat.zero_add, Nat.zero_add, readDigits] at hread
  obtain ⟨number, hspells, hvalue⟩ := readDigits_eq_ok_iff.mp hread
  rw [Nat.zero_mul, Nat.zero_add] at hvalue
  rwa [hvalue]

/-- As many digits are written as asked for. -/
theorem length_writeDigits (r : Radix) (count value : Nat) :
    (r.writeDigits count value).length = count := by
  rw [← (r.spells_writeDigits count value).byteCount_eq, byteCount_writeDigits]

/-- Written digits are in upper case. -/
theorem mem_upperDigits_of_mem_writeDigits {r : Radix} {count value : Nat} {c : Char}
    (h : c ∈ r.writeDigits count value) : c ∈ upperDigits.take r.base := by
  have hdigits : ∀ d < r.base, hexDigit d ∈ upperDigits.take r.base := by cases r <;> decide
  induction count generalizing value with
  | zero => cases h
  | succ count ih =>
    rw [writeDigits, List.mem_append, List.mem_singleton] at h
    obtain h | rfl := h
    · exact ih h
    · exact hdigits _ (Nat.mod_lt _ r.base_bounds.1)

/-! ## Literals -/

/-- A text is canonical exactly if its characters are a mark and as many digits in upper case as a
table of the width is printed with. -/
theorem isCanonical_iff {w : Width} {r : Radix} {text : String} :
    IsCanonical w r text ↔ ∃ digits, text.toList = '0' :: r.mark :: digits ∧
      digits.length = r.digitCount w ∧ ∀ c ∈ digits, c ∈ upperDigits.take r.base := by
  constructor
  · rintro (⟨digits, hlength, hchars⟩ | ⟨digits, hlength, hchars⟩)
    · refine ⟨digits.toList, by simp [mark], ?_, hchars⟩
      rw [String.length_toList, hlength, digitCount, w.rows_eq, Nat.max_comm]
    · refine ⟨digits.toList, by simp [mark], ?_, fun c hc => ?_⟩
      · rw [String.length_toList, hlength, digitCount, w.rows_eq]
      · obtain rfl | rfl := hchars c hc <;> decide
  · rintro ⟨digits, htext, hlength, hchars⟩
    rw [toList_eq_mark_iff.mp htext]
    cases r with
    | hex =>
      refine .hex (String.ofList digits) ?_ ?_
      · rw [String.length_ofList, hlength, digitCount, w.rows_eq, Nat.max_comm]
      · rw [String.toList_ofList]
        exact hchars
    | binary =>
      refine .binary (String.ofList digits) ?_ fun c hc => ?_
      · rw [String.length_ofList, hlength, digitCount, w.rows_eq]
      · rw [String.toList_ofList] at hc
        have hmem : c ∈ ['0', '1'] := hchars c hc
        simpa using hmem

/-- The digits of a table hold no more than its rows, unless one hexadecimal digit stands for the
two rows of one input. -/
theorem base_pow_digitCount {r : Radix} {w : Width} (h : r = .hex → 2 ≤ w.inputs) :
    r.base ^ r.digitCount w = 2 ^ w.rows := by
  cases r with
  | binary => rfl
  | hex =>
    have hrows : w.rows = 4 * max (w.rows / 4) 1 := by
      have hfour : 2 ^ 2 ≤ w.rows := by
        rw [w.rows_eq]
        exact Nat.pow_le_pow_right (by decide) (h rfl)
      have := w.rows_cases
      omega
    calc 16 ^ max (w.rows / 4) 1 = 2 ^ (4 * max (w.rows / 4) 1) := (Nat.pow_mul 2 4 _).symm
      _ = 2 ^ w.rows := by rw [← hrows]

end Radix

namespace TruthTable

open Radix

/-- The literal of a table is the one canonical text that is a numeral of its value. -/
theorem literal_eq_iff {t : TruthTable} {r : Radix} {text : String} :
    t.literal r = text ↔ IsCanonical t.width r text ∧ IsNumeral text t.value := by
  constructor
  · rintro rfl
    rw [isCanonical_iff, isNumeral_iff, literal, String.toList_ofList]
    exact ⟨⟨_, rfl, r.length_writeDigits _ _, fun c hc => mem_upperDigits_of_mem_writeDigits hc⟩,
      Radix.readLiteral_literalChars t r⟩
  · rintro ⟨hcanonical, hnumeral⟩
    obtain ⟨digits, htext, hlength, hchars⟩ := isCanonical_iff.mp hcanonical
    obtain ⟨r', digits', htext', -, hspells⟩ := readLiteral_eq_ok_iff.mp (isNumeral_iff.mp hnumeral)
    -- The radix and the digits of a text are determined.
    have hsame := ofMark?_eq_some_iff.mpr htext'
    rw [htext, ofMark?_mark] at hsame
    cases hsame
    have hwritten := writeDigits_of_spells hspells fun c hc => List.mem_of_mem_take (hchars c hc)
    rw [literal, literalChars, ← hlength, hwritten, ← htext, String.ofList_toList]

/-- A stored table is read as it was. -/
theorem ofJson?_toJson (t : TruthTable) : ofJson? t.toJson = some t := by
  have hinputs : (Json.nat t.width.inputs).word? = some t.width.inputs := by
    have hle : t.width.inputs < 0x100000000 := Nat.lt_of_le_of_lt t.width.le_max (by decide)
    exact if_pos hle
  have hrecord : ofRecord t.toRecord = .ok t := ofLiteralAt_literal t .hex
  change ((Json.nat t.width.inputs).word?.bind fun inputs =>
    (ofRecord ⟨t.toRecord.init, inputs⟩).toOption) = some t
  rw [hinputs]
  exact congrArg Except.toOption hrecord

/-- A canonical text is a numeral, and it is printed for the table of its number exactly if the
number has no bit above the last row. -/
theorem exists_isNumeral_of_isCanonical {w : Width} {r : Radix} {text : String}
    (h : IsCanonical w r text) :
    ∃ value, IsNumeral text value ∧ value < r.base ^ r.digitCount w ∧
      ((ofValue value w).literal r = text ↔ value < 2 ^ w.rows) := by
  obtain ⟨digits, htext, hlength, hchars⟩ := isCanonical_iff.mp h
  obtain ⟨value, hspells⟩ := exists_spells hchars
  have hnumeral : IsNumeral text value := by
    refine isNumeral_iff.mpr (readLiteral_eq_ok_iff.mpr ⟨r, digits, htext, ?_, hspells⟩)
    rw [hlength]
    exact r.digitCount_bounds w
  refine ⟨value, hnumeral, hlength ▸ hspells.lt, ?_, fun hlt => ?_⟩
  · intro hprinted
    have hsame := isNumeral_iff.mp (literal_eq_iff.mp hprinted).2
    rw [isNumeral_iff.mp hnumeral] at hsame
    calc value = (ofValue value w).value := Except.ok.inj hsame
      _ < 2 ^ w.rows := (ofValue value w).value_lt_two_pow
  · have hvalue : (ofValue value w).value = value := Nat.mod_eq_of_lt hlt
    exact literal_eq_iff.mpr ⟨h, hvalue.symm ▸ hnumeral⟩

/-- A table is read from its literal in either radix, at its number of inputs, from its record and
from its stored form. Its literal is the one canonical text that is a numeral of its value. In the
other direction every canonical text is read as a table that is printed as this text in the same
radix, in hexadecimal from two inputs on and in binary at every width. -/
theorem literal_inverse :
    (∀ (t : TruthTable) (r : Radix), ofLiteralAt (t.literal r) t.width.inputs = .ok t) ∧
      (∀ t : TruthTable, ofRecord t.toRecord = .ok t ∧ ofJson? t.toJson = some t) ∧
      (∀ (t : TruthTable) (r : Radix) (text : String),
        t.literal r = text ↔ IsCanonical t.width r text ∧ IsNumeral text t.value) ∧
      ∀ (w : Width) (r : Radix) (text : String), IsCanonical w r text →
        (r = .hex → 2 ≤ w.inputs) → ∃ t, ofLiteralAt text w.inputs = .ok t ∧ t.literal r = text := by
  refine ⟨ofLiteralAt_literal, fun t => ⟨ofLiteralAt_literal t .hex, ofJson?_toJson t⟩,
    fun t r text => literal_eq_iff, fun w r text h hroom => ?_⟩
  obtain ⟨value, hnumeral, hlt, hprinted⟩ := exists_isNumeral_of_isCanonical h
  rw [base_pow_digitCount hroom] at hlt
  exact ⟨ofValue value w,
    ofLiteralAt_inputs_eq_ok_iff_isNumeral.mpr ⟨value, hnumeral, rfl⟩, hprinted.mpr hlt⟩

/-- `0x0E` is canonical at three inputs and `0b10` at one, and both are printed again. -/
theorem literal_inverse_padded :
    (∃ t, ofLiteralAt "0x0E" 3 = .ok t ∧ t.literal .hex = "0x0E") ∧
      ∃ t, ofLiteralAt "0b10" 1 = .ok t ∧ t.literal .binary = "0b10" := by
  have hhex : IsCanonical ⟨3, by decide, by decide⟩ .hex ("0x" ++ "0E") :=
    .hex "0E" rfl (by simp [upperDigits])
  have hbinary : IsCanonical ⟨1, by decide, by decide⟩ .binary ("0b" ++ "10") :=
    .binary "10" rfl (by simp)
  exact ⟨literal_inverse.2.2.2 _ _ _ hhex (fun _ => by decide),
    literal_inverse.2.2.2 _ _ _ hbinary (fun h => by cases h)⟩

/-- One hexadecimal digit has room for four rows: at one input `0xE` loses the upper two. -/
example : (ofLiteralAt "0xE" 1).map (·.literal .hex) = .ok "0x2" := by rfl

end TruthTable

end LutLogic
