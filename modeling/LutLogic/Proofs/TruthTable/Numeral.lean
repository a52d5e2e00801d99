import LutLogic.Proofs.TruthTable.Words
import Mathlib.Data.List.Forall2
import Mathlib.Data.Nat.Digits.Defs

/-!
# The numerals of truth tables

`IsNumeral` says which texts are read as truth tables, and which number each of them stands for,
without the reader: `0x` and one to sixteen hexadecimal digits of either case, or `0b` and one to 64
binary digits, with the positional value of the digits. The reader goes through the digits from the
highest one on, so its induction is on the digits that are left, below what was read so far
(`Radix.readDigits_eq_ok_iff`); that the limit on the digits is judged by bytes makes no difference
where all characters are digits (`Spells.byteCount_eq`).

A numeral is below `2 ^ 64` (`IsNumeral.lt`). The number is therefore what the reader in words
gets as well, which shifts each digit into a word of 64 bits and would lose what is moved out of it.
-/

namespace LutLogic

/-! ## Digits and numbers -/

/-- The digits up to base sixteen in their order, letters in upper case. -/
def upperDigits : List Char :=
  ['0', '1', '2', '3', '4', '5', '6', '7', '8', '9', 'A', 'B', 'C', 'D', 'E', 'F']

/-- The digits up to base sixteen in their order, letters in lower case. -/
def lowerDigits : List Char :=
  ['0', '1', '2', '3', '4', '5', '6', '7', '8', '9', 'a', 'b', 'c', 'd', 'e', 'f']

/-- Character `c` is the digit of value `d` in base `base`. -/
def IsDigit (base : Nat) (c : Char) (d : Nat) : Prop :=
  d < base ∧ (upperDigits[d]? = some c ∨ lowerDigits[d]? = some c)

/-- Characters spell a number in base `base`: they are digits, the first one in the highest
place. -/
def Spells (base : Nat) (cs : List Char) (value : Nat) : Prop :=
  ∃ ds, List.Forall₂ (IsDigit base) cs ds ∧ value = Nat.ofDigits base ds.reverse

/-- A text is a numeral for a number of 64 bits. -/
inductive IsNumeral (text : String) (value : Nat) : Prop where
  /-- Hexadecimal digits, four bits each. -/
  | hex (digits : String) (text_eq : text = "0x" ++ digits)
    (length : 1 ≤ digits.length ∧ digits.length ≤ 16) (spells : Spells 16 digits.toList value)
  /-- Binary digits, one bit each. -/
  | binary (digits : String) (text_eq : text = "0b" ++ digits)
    (length : 1 ≤ digits.length ∧ digits.length ≤ 64) (spells : Spells 2 digits.toList value)

/-- What holds of the sixteen digits, in either case and with their values, holds of every digit. -/
theorem forall_digit {p : Char → Nat → Prop}
    (hall : ∀ n : Fin 16, p (upperDigits.get n) n ∧ p (lowerDigits.get n) n) {c : Char} {d : Nat}
    (h : upperDigits[d]? = some c ∨ lowerDigits[d]? = some c) : p c d := by
  obtain h | h := h
  · obtain ⟨hd, rfl⟩ := List.getElem?_eq_some_iff.mp h
    exact (hall ⟨d, hd⟩).1
  · obtain ⟨hd, rfl⟩ := List.getElem?_eq_some_iff.mp h
    exact (hall ⟨d, hd⟩).2

/-- The digits are among the characters of seven bits. -/
theorem toNat_lt_of_hexDigitValue? {c : Char} {d : Nat} (h : hexDigitValue? c = some d) :
    c.toNat < 128 := by
  refine Nat.lt_of_not_le fun hle => ?_
  have hout (a b : Char) (hb : b.toNat < 128) : ¬(a ≤ c ∧ c ≤ b) := by
    rintro ⟨-, hcb⟩
    have hle' : c.toNat ≤ b.toNat := hcb
    omega
  unfold hexDigitValue? at h
  rw [if_neg (hout '0' '9' (by decide)), if_neg (hout 'A' 'F' (by decide)),
    if_neg (hout 'a' 'f' (by decide))] at h
  cases h

/-- A hexadecimal digit is read with its place among the digits of its case. -/
theorem hexDigitValue?_eq_some_iff {c : Char} {d : Nat} :
    hexDigitValue? c = some d ↔ upperDigits[d]? = some c ∨ lowerDigits[d]? = some c := by
  constructor
  · intro h
    have hall : ∀ n : Fin 128, (hexDigitValue? (Char.ofNat n)).all fun d =>
        upperDigits[d]? = some (Char.ofNat n) ∨ lowerDigits[d]? = some (Char.ofNat n) := by
      decide
    have hc := hall ⟨c.toNat, toNat_lt_of_hexDigitValue? h⟩
    rw [Char.ofNat_toNat, h, Option.all_some, decide_eq_true_eq] at hc
    exact hc
  · exact forall_digit (p := fun c d => hexDigitValue? c = some d) (by decide)

/-- A digit takes one byte. -/
theorem IsDigit.utf8Size_eq {base : Nat} {c : Char} {d : Nat} (h : IsDigit base c d) :
    c.utf8Size = 1 :=
  forall_digit (p := fun c _ => c.utf8Size = 1) (by decide) h.2

/-- Without digits the number is 0. -/
theorem spells_nil_iff {base value : Nat} : Spells base [] value ↔ value = 0 := by
  constructor
  · rintro ⟨ds, hds, rfl⟩
    cases hds
    rfl
  · rintro rfl
    exact ⟨[], .nil, rfl⟩

/-- A first digit stands above as many places as there are digits after it. -/
theorem spells_cons_iff {base value : Nat} {c : Char} {cs : List Char} :
    Spells base (c :: cs) value ↔
      ∃ d rest, IsDigit base c d ∧ Spells base cs rest ∧ value = d * base ^ cs.length + rest := by
  have hvalue {d : Nat} {ds : List Nat} (hds : List.Forall₂ (IsDigit base) cs ds) :
      Nat.ofDigits base (d :: ds).reverse =
        d * base ^ cs.length + Nat.ofDigits base ds.reverse := by
    rw [Nat.ofDigits_reverse_cons, hds.length_eq, Nat.mul_comm, Nat.add_comm]
  constructor
  · rintro ⟨ds, hds, rfl⟩
    cases hds with
    | cons hd hds => exact ⟨_, _, hd, ⟨_, hds, rfl⟩, hvalue hds⟩
  · rintro ⟨d, rest, hd, ⟨ds, hds, rfl⟩, rfl⟩
    exact ⟨d :: ds, .cons hd hds, (hvalue hds).symm⟩

/-- Digits take one byte each. -/
theorem Spells.byteCount_eq {base value : Nat} {cs : List Char} (h : Spells base cs value) :
    Text.byteCount cs = cs.length := by
  induction cs generalizing value with
  | nil => rfl
  | cons c cs ih =>
    obtain ⟨d, rest, hd, hrest, -⟩ := spells_cons_iff.mp h
    rw [Text.byteCount, hd.utf8Size_eq, ih hrest, List.length_cons, Nat.add_comm]

/-- A number is below the power of the base that has as many places as it has digits. -/
theorem Spells.lt {base value : Nat} {cs : List Char} (h : Spells base cs value) :
    value < base ^ cs.length := by
  induction cs generalizing value with
  | nil =>
    rw [spells_nil_iff.mp h]
    exact Nat.one_pos
  | cons c cs ih =>
    obtain ⟨d, rest, hd, hrest, rfl⟩ := spells_cons_iff.mp h
    calc d * base ^ cs.length + rest < d * base ^ cs.length + base ^ cs.length :=
          Nat.add_lt_add_left (ih hrest) _
      _ = (d + 1) * base ^ cs.length := (Nat.succ_mul _ _).symm
      _ ≤ base * base ^ cs.length := Nat.mul_le_mul_right _ hd.1
      _ = base ^ (c :: cs).length := Nat.pow_succ'.symm

namespace Radix

/-! ## Reading -/

/-- A digit of a radix is read with its value. -/
theorem digitValue?_eq_some_iff {r : Radix} {c : Char} {d : Nat} :
    r.digitValue? c = some d ↔ IsDigit r.base c d := by
  unfold digitValue? IsDigit
  rw [Option.filter_eq_some_iff, hexDigitValue?_eq_some_iff, decide_eq_true_eq, and_comm]

/-- Characters are read exactly if they are digits, as the number that they spell below what was
read so far. -/
theorem readDigits_eq_ok_iff {r : Radix} {pos acc value : Nat} {cs : List Char} :
    r.readDigits pos acc cs = .ok value ↔
      ∃ rest, Spells r.base cs rest ∧ value = acc * r.base ^ cs.length + rest := by
  induction cs generalizing pos acc with
  | nil =>
    simp only [spells_nil_iff, exists_eq_left]
    unfold readDigits
    rw [Except.ok.injEq, List.length_nil, Nat.pow_zero, Nat.mul_one, Nat.add_zero]
    exact eq_comm
  | cons c cs ih =>
    -- One digit more moves what was read before up by one place.
    have hvalue (d rest : Nat) : (acc * r.base + d) * r.base ^ cs.length + rest =
        acc * r.base ^ (c :: cs).length + (d * r.base ^ cs.length + rest) := by
      rw [List.length_cons, Nat.pow_succ']
      ring
    unfold readDigits
    cases hdigit : r.digitValue? c with
    | none =>
      constructor
      · intro h
        cases h
      · rintro ⟨number, hspells, -⟩
        obtain ⟨d, rest, hd, -⟩ := spells_cons_iff.mp hspells
        rw [digitValue?_eq_some_iff.mpr hd] at hdigit
        cases hdigit
    | some d =>
      dsimp only
      rw [ih]
      constructor
      · rintro ⟨rest, hspells, rfl⟩
        exact ⟨_, spells_cons_iff.mpr ⟨d, rest, digitValue?_eq_some_iff.mp hdigit, hspells, rfl⟩,
          hvalue d rest⟩
      · rintro ⟨number, hspells, rfl⟩
        obtain ⟨d', rest, hd', hrest, rfl⟩ := spells_cons_iff.mp hspells
        have hsame := digitValue?_eq_some_iff.mpr hd'
        rw [hdigit] at hsame
        cases hsame
        exact ⟨rest, hrest, (hvalue d rest).symm⟩

/-- A text is read exactly if it is the mark of a radix with at least one digit and no more digits
than fit 64 bits. -/
theorem readLiteral_eq_ok_iff {text : List Char} {value : Nat} :
    readLiteral text = .ok value ↔ ∃ (r : Radix) (digits : List Char),
      text = '0' :: r.mark :: digits ∧ (1 ≤ digits.length ∧ digits.length ≤ r.capacity) ∧
        Spells r.base digits value := by
  -- Before the first digit the number is 0.
  have hread {r : Radix} {digits : List Char} :
      r.readDigits 2 0 digits = .ok value ↔ Spells r.base digits value := by
    rw [readDigits_eq_ok_iff]
    simp only [Nat.zero_mul, Nat.zero_add, exists_eq_right']
  constructor
  · intro h
    unfold readLiteral at h
    split at h
    · cases h
    · next r digits hmark =>
      split at h
      · cases h
      · next hne =>
        split at h
        · cases h
        · next hfew =>
          have hspells := hread.mp h
          -- All characters are digits, so their bytes are their number.
          rw [hspells.byteCount_eq] at hfew
          exact ⟨r, digits, ofMark?_eq_some_iff.mp hmark,
            ⟨List.length_pos_iff.mpr hne, Nat.le_of_not_lt hfew⟩, hspells⟩
  · rintro ⟨r, digits, rfl, ⟨hpos, hle⟩, hspells⟩
    unfold readLiteral
    rw [ofMark?_mark]
    dsimp only
    rw [if_neg (List.length_pos_iff.mp hpos), hspells.byteCount_eq, if_neg (Nat.not_lt.mpr hle)]
    exact hread.mpr hspells

/-- A mark and digits as characters are the texts of both, one after the other. -/
theorem toList_eq_mark_iff {text : String} {r : Radix} {digits : List Char} :
    text.toList = '0' :: r.mark :: digits ↔
      text = String.ofList ['0', r.mark] ++ String.ofList digits := by
  rw [← String.ofList_append, ← String.toList_inj, String.toList_ofList]
  rfl

/-- A text is a numeral exactly if its characters are a mark and few enough digits. -/
theorem isNumeral_iff {text : String} {value : Nat} :
    IsNumeral text value ↔ readLiteral text.toList = .ok value := by
  rw [readLiteral_eq_ok_iff]
  constructor
  · rintro (⟨digits, rfl, hlength, hspells⟩ | ⟨digits, rfl, hlength, hspells⟩)
    · exact ⟨.hex, digits.toList, by simp [mark], digits.length_toList.symm ▸ hlength, hspells⟩
    · exact ⟨.binary, digits.toList, by simp [mark], digits.length_toList.symm ▸ hlength, hspells⟩
  · rintro ⟨r, digits, htext, hlength, hspells⟩
    have hchars := toList_eq_mark_iff.mp htext
    rw [← String.length_ofList] at hlength
    rw [← String.toList_ofList (l := digits)] at hspells
    cases r with
    | hex => exact .hex (String.ofList digits) hchars hlength hspells
    | binary => exact .binary (String.ofList digits) hchars hlength hspells

end Radix

/-- The number of a numeral fits 64 bits. -/
theorem IsNumeral.lt {text : String} {value : Nat} (h : IsNumeral text value) : value < 2 ^ 64 := by
  obtain ⟨digits, -, hlength, hspells⟩ | ⟨digits, -, hlength, hspells⟩ := h
  · calc value < 16 ^ digits.toList.length := hspells.lt
      _ ≤ 16 ^ 16 := Nat.pow_le_pow_right (by decide) (digits.length_toList ▸ hlength.2)
      _ = 2 ^ 64 := by decide
  · calc value < 2 ^ digits.toList.length := hspells.lt
      _ ≤ 2 ^ 64 := Nat.pow_le_pow_right (by decide) (digits.length_toList ▸ hlength.2)

/-- In a word of 64 bits a numeral is read as its number, without loss. -/
theorem IsNumeral.exists_word {text : String} {value : Nat} (h : IsNumeral text value) :
    ∃ word, Radix.wordOfLiteral text.toList = some word ∧ word.toNat = value := by
  refine ⟨BitVec.ofNat 64 value, ?_, ?_⟩
  · rw [TableWord.wordOfLiteral_eq, Radix.isNumeral_iff.mp h]
    rfl
  · rw [BitVec.toNat_ofNat, Nat.mod_eq_of_lt h.lt]

namespace TruthTable

/-- A table is that of a number exactly if its value is the number without the bits above the last
row. -/
theorem ofValue_eq_self_iff {t : TruthTable} {value : Nat} :
    ofValue value t.width = t ↔ t.value = value % 2 ^ t.width.rows := by
  constructor
  · intro h
    exact (congrArg TruthTable.value h).symm
  · intro h
    refine ext_bit rfl fun r _ => ?_
    unfold bit
    rw [h]
    rfl

/-- At a width a text is read exactly if it is a numeral, with the rows of its number. -/
theorem ofLiteralAt_inputs_eq_ok_iff_isNumeral {text : String} {w : Width} {t : TruthTable} :
    ofLiteralAt text w.inputs = .ok t ↔ ∃ value, IsNumeral text value ∧ ofValue value w = t := by
  rw [ofLiteralAt_inputs_eq_ok_iff, readLiteral, map_eq_ok_iff]
  simp only [Radix.isNumeral_iff]

/-- At a width a text is refused, with a parse error for a literal, exactly if it is no numeral. -/
theorem ofLiteralAt_inputs_eq_parse_iff {text : String} {w : Width} :
    (∃ e, ofLiteralAt text w.inputs = .error (.parse e) ∧ e.target = .initString ∧
      e.input = text) ↔ ¬∃ value, IsNumeral text value := by
  constructor
  · rintro ⟨e, he, -⟩ ⟨value, hvalue⟩
    rw [ofLiteralAt_inputs_eq_ok_iff_isNumeral.mpr ⟨value, hvalue, rfl⟩] at he
    cases he
  · intro hnone
    have hrefused (t : TruthTable) : readLiteral text.toList w ≠ .ok t := by
      intro hok
      obtain ⟨value, hvalue, -⟩ := map_eq_ok_iff.mp hok
      exact hnone ⟨value, Radix.isNumeral_iff.mpr hvalue⟩
    obtain ⟨f, hf⟩ := Fault.exists_within_eq_error_iff.mpr hrefused
    rw [ofLiteralAt_inputs]
    exact ⟨_, hf, rfl, rfl⟩

/-- A number of inputs is reported exactly if it is no width, whatever the text. -/
theorem ofLiteralAt_eq_inputCount_iff {text : String} {count : Nat} :
    ofLiteralAt text count = .error (.inputCount count) ↔ ¬(1 ≤ count ∧ count ≤ 6) :=
  Width.ofNat_bind_within_eq_inputCount_iff

/-- The numerals are the texts that are read, and they are read as the table whose value is that of
the digits, without the bits above the last row. In the word of 64 bits into which the digits are
shifted no digit is lost. Every other text is refused, at every width, with a parse error for a
literal on this text, and a number of inputs that is no width is reported for every text. -/
theorem ofLiteralAt_eq_ok_iff (text : String) :
    (∀ count t, ofLiteralAt text count = .ok t ↔ t.width.inputs = count ∧
        ∃ value, IsNumeral text value ∧ t.value = value % 2 ^ 2 ^ count) ∧
      (∀ value, IsNumeral text value →
        ∃ word, Radix.wordOfLiteral text.toList = some word ∧ word.toNat = value) ∧
      (∀ w : Width, (∃ e, ofLiteralAt text w.inputs = .error (.parse e) ∧
        e.target = .initString ∧ e.input = text) ↔ ¬∃ value, IsNumeral text value) ∧
      ∀ count, ofLiteralAt text count = .error (.inputCount count) ↔
        ¬(1 ≤ count ∧ count ≤ 6) := by
  refine ⟨fun count t => ⟨?_, ?_⟩, fun value h => h.exists_word,
    fun w => ofLiteralAt_inputs_eq_parse_iff, fun count => ofLiteralAt_eq_inputCount_iff⟩
  · intro h
    obtain ⟨w, hw, -⟩ := bind_eq_ok_iff.mp h
    obtain rfl := Width.ofNat_eq_ok_iff.mp hw
    obtain ⟨value, hvalue, rfl⟩ := ofLiteralAt_inputs_eq_ok_iff_isNumeral.mp h
    exact ⟨rfl, value, hvalue, rfl⟩
  · rintro ⟨rfl, value, hvalue, hrows⟩
    exact ofLiteralAt_inputs_eq_ok_iff_isNumeral.mpr
      ⟨value, hvalue, ofValue_eq_self_iff.mpr hrows⟩

/-- `0xfF06` has four digits, of either case; at three inputs the table keeps the last two of them,
while the word has all four. Without digits there is no numeral. -/
theorem ofLiteralAt_eq_ok_iff_cut :
    (∃ t, ofLiteralAt "0xfF06" 3 = .ok t ∧ t.value = 6) ∧
      (∃ word, Radix.wordOfLiteral "0xfF06".toList = some word ∧ word.toNat = 0xFF06) ∧
      ofLiteralAt "0xfF06" 7 = .error (.inputCount 7) := by
  -- The digits are `15, 15, 0, 6`, the first two of them written in different cases.
  have hdigits : Spells 16 "fF06".toList 0xFF06 :=
    ⟨[15, 15, 0, 6], by simp [IsDigit, upperDigits, lowerDigits], rfl⟩
  have hnumeral : IsNumeral "0xfF06" 0xFF06 := .hex "fF06" rfl (by decide) hdigits
  obtain ⟨hread, hword, -, hcount⟩ := ofLiteralAt_eq_ok_iff "0xfF06"
  refine ⟨⟨ofValue 6 ⟨3, by decide, by decide⟩, ?_, rfl⟩, hword _ hnumeral,
    (hcount 7).mpr (by decide)⟩
  exact (hread 3 _).mpr ⟨rfl, _, hnumeral, rfl⟩

end TruthTable

end LutLogic
