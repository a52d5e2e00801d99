import LutLogic.Json.Form
import LutLogic.Proofs.Decomposition.Exact
import LutLogic.Proofs.TruthTable.Literal
import LutLogic.Proofs.TruthTable.Sensitivity

/-!
# Truth tables in words

A look-up table has at most 64 rows, so its outputs fit a word of 64 bits. `TableWord` is a table
kept in such a word, and its operations are those of a machine: complements reach above the last
row, shifts lose what they move out, and the mask of the width is applied only where a table is made
or shrunk. A table that grows is or'ed with copies of itself, and nothing cuts off what lies above
its rows; equality and the test for a constant compare whole words.

That this needs no further mask is a fact about tables that were made by these operations, and
`TableRun` is any sequence of them. `TruthTable.toWord` is the word of a table, with 0 above the
rows. Each operation on words of tables gives the word of the table that the same operation on
tables gives, so a run in words gives the word of its table, or is refused with it (`word?_eq`).
-/

namespace LutLogic

/-! ## Words -/

/-- The word whose bits in the rows of a width are 1. A shift by 64 would lose the bit, so the
widest mask is a case of its own. -/
def Width.wordMask (w : Width) : BitVec 64 :=
  if 64 ≤ w.rows then BitVec.allOnes 64 else (1#64 <<< w.rows) - 1#64

/-- The number of bits that a digit stands for. -/
def Radix.digitBits : Radix → Nat
  | hex => 4
  | binary => 1

/-- Shifts digits into a word, the first one highest. -/
def Radix.shiftDigits (r : Radix) (acc : BitVec 64) : List Char → Option (BitVec 64)
  | [] => some acc
  | c :: cs =>
    match r.digitValue? c with
    | none => none
    | some d => r.shiftDigits (acc <<< r.digitBits ||| BitVec.ofNat 64 d) cs

/-- The word of a literal. -/
def Radix.wordOfLiteral (text : List Char) : Option (BitVec 64) :=
  match ofMark? text with
  | none => none
  | some (r, digits) =>
    if digits = [] then none
    else if r.capacity < Text.byteCount digits then none
    else r.shiftDigits 0#64 digits

/-- A truth table in a word of 64 bits. -/
structure TableWord where
  /-- The outputs, the one of row `r` in bit `r`. -/
  word : BitVec 64
  /-- The number of inputs. -/
  width : Width
deriving DecidableEq

namespace TableWord

/-- The table of the low bits of a word. -/
def ofWord (word : BitVec 64) (width : Width) : TableWord := ⟨word &&& width.wordMask, width⟩

/-- The table with the same output in every row. -/
def constant (output : Bool) (width : Width) : TableWord :=
  ofWord (if output then BitVec.allOnes 64 else 0#64) width

/-- The table that a literal stands for. -/
def ofLiteral (text : String) (width : Width) : Option TableWord :=
  (Radix.wordOfLiteral text.toList).map (ofWord · width)

/-- The table of an equation: the bit of each row with output 1 is set. -/
def ofEquation (e : Equation) (width : Width) : TableWord :=
  let rows := (List.range width.rows).filter fun row => e.evaluate row
  ofWord (rows.foldl (fun acc row => acc ||| 1#64 <<< row) 0#64) width

/-- The outputs over `k` inputs, repeated over `steps` further inputs. -/
def repeatWord (word : BitVec 64) (k : Nat) : Nat → BitVec 64
  | 0 => word
  | steps + 1 =>
    let v := repeatWord word k steps
    v ||| v <<< 2 ^ (k + steps)

/-- The table at another width. Only a table that shrinks is masked. -/
def resize (s : TableWord) (width : Width) : TableWord :=
  if s.width.inputs < width.inputs then
    ⟨repeatWord s.word s.width.inputs (width.inputs - s.width.inputs), width⟩
  else if width.inputs < s.width.inputs then ⟨s.word &&& width.wordMask, width⟩
  else ⟨s.word, width⟩

/-- The tables with an input held at 0 and at 1. -/
def cofactors (s : TableWord) (input : Nat) : Option (TableWord × TableWord) :=
  if 1 ≤ input ∧ input ≤ s.width.inputs then
    let pattern := BitVec.ofNat 64 (inputPatterns.getD (input - 1) 0)
    let stride := 2 ^ (input - 1)
    let low := s.word &&& ~~~pattern
    let high := (s.word &&& pattern) >>> stride
    some (ofWord (low ||| low <<< stride) s.width, ofWord (high ||| high <<< stride) s.width)
  else none

/-- The output in row `row`, and 0 for a row beyond the table. -/
def bit (s : TableWord) (row : Nat) : Bool :=
  decide (row < s.width.rows) && ((s.word >>> row) &&& 1#64 != 0#64)

/-- The output of a table whose word is 0 or the mask of its width. -/
def constant? (s : TableWord) : Option Bool :=
  if s.word = 0#64 then some false else if s.word = s.width.wordMask then some true else none

/-- A word carries a table: it has the width and the value of the table, and whatever is asked of it
is answered as for the table. -/
structure Carries (s : TableWord) (t : TruthTable) : Prop where
  /-- The widths are the same. -/
  width_eq : s.width = t.width
  /-- The word is the value of the table, with nothing above its rows. -/
  toNat_eq : s.word.toNat = t.value
  /-- Every row has the same output. -/
  bit_eq : ∀ r, s.bit r = t.bit r
  /-- The same constant is found. -/
  constant?_eq : s.constant? = t.constant?

end TableWord

/-! ## The word of a table -/

/-- The mask of up to six inputs fits a word. -/
theorem toNat_ofNat_rowMask {k : Nat} (h : k ≤ maxInputs) :
    (BitVec.ofNat 64 (rowMask k)).toNat = rowMask k := by
  have hrows : 2 ^ k ≤ 64 := Nat.pow_le_pow_right (by decide) h
  have hpow : 2 ^ 2 ^ k ≤ 2 ^ 64 := Nat.pow_le_pow_right (by decide) hrows
  have hpos : 0 < 2 ^ 2 ^ k := Nat.two_pow_pos _
  rw [BitVec.toNat_ofNat, rowMask_eq]
  exact Nat.mod_eq_of_lt (by omega)

/-- The mask of a width in a word is its mask. -/
theorem Width.wordMask_eq (w : Width) : w.wordMask = BitVec.ofNat 64 w.mask := by
  change w.wordMask = BitVec.ofNat 64 (2 ^ w.rows - 1)
  unfold wordMask
  obtain h | h | h | h | h | h := w.rows_cases
  all_goals rw [h]; decide

/-- The mask of a width has a 1 in each of its rows. -/
theorem Width.getLsbD_wordMask (w : Width) (r : Nat) :
    w.wordMask.getLsbD r = decide (r < w.rows) := by
  have hmask : w.mask.testBit r = decide (r < w.rows) := testBit_rowMask w.inputs r
  rw [wordMask_eq, BitVec.getLsbD_ofNat, hmask, ← Bool.decide_and, decide_eq_decide]
  have := w.rows_le
  omega

/-- A count is a width or refused. -/
theorem Width.toOption_ofNat (count : Nat) : (ofNat count).toOption = ofNat? count := by
  rw [ofNat]
  cases ofNat? count <;> rfl

/-- Or'ing a number with a copy that is shifted up is the same in words. -/
theorem ofNat_or_shiftLeft (value n : Nat) :
    BitVec.ofNat 64 value ||| BitVec.ofNat 64 value <<< n =
      BitVec.ofNat 64 (value ||| value <<< n) := by
  apply BitVec.eq_of_getLsbD_eq
  intro r hr
  rw [BitVec.getLsbD_or, BitVec.getLsbD_shiftLeft]
  simp only [BitVec.getLsbD_ofNat, Nat.testBit_or, Nat.testBit_shiftLeft]
  have hsub : r - n < 64 := by omega
  simp [hr, hsub, ← decide_not]

namespace TruthTable

/-- The word of a table, with 0 above the rows. -/
def toWord (t : TruthTable) : TableWord := ⟨BitVec.ofNat 64 t.value, t.width⟩

/-- The bits of the word of a table are those of its value. -/
theorem getLsbD_toWord (t : TruthTable) (r : Nat) : t.toWord.word.getLsbD r = t.bit r := by
  rw [toWord, BitVec.getLsbD_ofNat, bit]
  by_cases hr : r < 64
  · rw [decide_eq_true hr, Bool.true_and]
  · have hout := t.bit_of_rows_le (Nat.le_trans t.width.rows_le (Nat.le_of_not_lt hr))
    rw [decide_eq_false hr, Bool.false_and]
    exact hout.symm

/-- The word of a table is its value. -/
theorem toNat_toWord (t : TruthTable) : t.toWord.word.toNat = t.value := by
  apply Nat.eq_of_testBit_eq
  intro r
  rw [BitVec.testBit_toNat, getLsbD_toWord, bit]

/-- A word with the width and the bits of a table is its word. -/
theorem eq_toWord {s : TableWord} {t : TruthTable} (hw : s.width = t.width)
    (h : ∀ r, s.word.getLsbD r = t.bit r) : s = t.toWord := by
  have hword : s.word = t.toWord.word :=
    BitVec.eq_of_getLsbD_eq fun r _ => (h r).trans (t.getLsbD_toWord r).symm
  cases s
  cases hw
  cases hword
  rfl

/-- Different tables have different words. -/
theorem toWord_inj {t u : TruthTable} : t.toWord = u.toWord ↔ t = u := by
  refine ⟨fun h => ext_bit (congrArg TableWord.width h) fun r _ => ?_, congrArg toWord⟩
  rw [← getLsbD_toWord, h, getLsbD_toWord]

end TruthTable

namespace TableWord

open TruthTable (toWord eq_toWord getLsbD_toWord)

/-! ## Tables that are made

A word is masked where a table is made of it, so it only has to have the bits of the value in the
rows of the table. -/

/-- A masked word is the word of the table made of a value that has the same bits in its rows. -/
theorem ofWord_eq {word : BitVec 64} {value : Nat} {w : Width}
    (h : ∀ r < w.rows, word.getLsbD r = value.testBit r) :
    ofWord word w = (TruthTable.ofValue value w).toWord := by
  refine eq_toWord rfl fun r => ?_
  rw [ofWord, BitVec.getLsbD_and, w.getLsbD_wordMask, TruthTable.bit_ofValue, Bool.and_comm]
  by_cases hr : r < w.rows
  · rw [h r hr]
  · rw [decide_eq_false hr, Bool.false_and, Bool.false_and]

/-- A number that is cut off to a word makes the table of the number. -/
theorem ofWord_ofNat (value : Nat) (w : Width) :
    ofWord (BitVec.ofNat 64 value) w = (TruthTable.ofValue value w).toWord := by
  refine ofWord_eq fun r hr => ?_
  have hr64 : r < 64 := Nat.lt_of_lt_of_le hr w.rows_le
  rw [BitVec.getLsbD_ofNat, decide_eq_true hr64, Bool.true_and]

/-- A word makes the table of its value. -/
theorem ofWord_toWord (word : BitVec 64) (w : Width) :
    ofWord word w = (TruthTable.ofValue word.toNat w).toWord :=
  ofWord_eq fun _ _ => (BitVec.testBit_toNat word).symm

/-- A constant table is the same in words. -/
theorem constant_eq (output : Bool) (w : Width) :
    constant output w = (TruthTable.constant output w).toWord := by
  refine ofWord_eq fun r hr => ?_
  cases output with
  | false => simp
  | true =>
    have hr64 : r < 64 := Nat.lt_of_lt_of_le hr w.rows_le
    have hmask : w.mask.testBit r = true := (testBit_rowMask w.inputs r).trans (decide_eq_true hr)
    rw [if_pos rfl, if_pos rfl, hmask, BitVec.getLsbD_allOnes, decide_eq_true hr64]

/-- The rows whose bits are set in turn are those of the result. -/
theorem getLsbD_setRows (rows : List Nat) (acc : BitVec 64) {r : Nat} (hr : r < 64) :
    (rows.foldl (fun acc row => acc ||| 1#64 <<< row) acc).getLsbD r =
      (acc.getLsbD r || decide (r ∈ rows)) := by
  induction rows generalizing acc with
  | nil => simp
  | cons row rows ih =>
    have hbit : (1#64 <<< row).getLsbD r = decide (r = row) := by
      rw [BitVec.getLsbD_shiftLeft, BitVec.getLsbD_one, decide_eq_true hr, Bool.true_and,
        ← decide_not, ← Bool.decide_and, ← Bool.decide_and, decide_eq_decide]
      omega
    rw [List.foldl_cons, ih, BitVec.getLsbD_or, hbit, Bool.or_assoc, ← Bool.decide_or]
    simp only [List.mem_cons]

/-- The table of an equation is the same in words. -/
theorem ofEquation_eq (e : Equation) (w : Width) : ofEquation e w = (e.toTable w).toWord := by
  refine ofWord_eq fun r hr => ?_
  have hr64 : r < 64 := Nat.lt_of_lt_of_le hr w.rows_le
  rw [getLsbD_setRows _ _ hr64, Equation.testBit_rowBits]
  simp [hr]

/-! ## Literals -/

/-- A digit that is shifted into a word is added behind the number. -/
theorem ofNat_shiftDigit {r : Radix} {c : Char} {d : Nat} (hd : r.digitValue? c = some d)
    (acc : Nat) :
    BitVec.ofNat 64 acc <<< r.digitBits ||| BitVec.ofNat 64 d =
      BitVec.ofNat 64 (acc * r.base + d) := by
  have hbase : r.base = 2 ^ r.digitBits := by cases r <;> rfl
  have hlt : d < 2 ^ r.digitBits := by
    rw [← hbase]
    obtain ⟨-, hlt⟩ := Option.filter_eq_some_iff.mp hd
    exact of_decide_eq_true hlt
  rw [hbase, ← Nat.shiftLeft_eq, Nat.shiftLeft_add_eq_or_of_lt hlt, BitVec.ofNat_or]
  congr 1
  apply BitVec.eq_of_toNat_eq
  rw [BitVec.toNat_shiftLeft, BitVec.toNat_ofNat, BitVec.toNat_ofNat, Nat.shiftLeft_eq,
    Nat.shiftLeft_eq, Nat.mod_mul_mod]

/-- Digits are shifted into a word as they are read, or refused as well. -/
theorem shiftDigits_ofNat (r : Radix) (pos acc : Nat) (cs : List Char) :
    r.shiftDigits (BitVec.ofNat 64 acc) cs =
      (r.readDigits pos acc cs).toOption.map (BitVec.ofNat 64) := by
  induction cs generalizing pos acc with
  | nil => rfl
  | cons c cs ih =>
    unfold Radix.shiftDigits Radix.readDigits
    cases hd : r.digitValue? c with
    | none => rfl
    | some d =>
      dsimp only
      rw [ofNat_shiftDigit hd]
      exact ih _ _

/-- The word of a literal is its number, cut off to a word. -/
theorem wordOfLiteral_eq (text : List Char) :
    Radix.wordOfLiteral text = (Radix.readLiteral text).toOption.map (BitVec.ofNat 64) := by
  unfold Radix.wordOfLiteral Radix.readLiteral
  cases Radix.ofMark? text with
  | none => rfl
  | some mark =>
    obtain ⟨r, digits⟩ := mark
    dsimp only
    by_cases hnil : digits = []
    · rw [if_pos hnil, if_pos hnil]
      rfl
    · rw [if_neg hnil, if_neg hnil]
      by_cases hmany : r.capacity < Text.byteCount digits
      · rw [if_pos hmany, if_pos hmany]
        rfl
      · rw [if_neg hmany, if_neg hmany]
        exact shiftDigits_ofNat r 2 0 digits

/-- A literal is read in words as it is read, or refused as well. -/
theorem ofLiteral_eq (text : String) (w : Width) :
    ofLiteral text w = (TruthTable.ofLiteral text w).toOption.map toWord := by
  rw [ofLiteral, wordOfLiteral_eq, TruthTable.ofLiteral, TruthTable.readLiteral]
  cases Radix.readLiteral text.toList with
  | error f => rfl
  | ok value => exact congrArg some (ofWord_ofNat value w)

/-- A literal at a number of inputs is read in words as it is read, or refused as well. -/
theorem ofLiteralAt_eq (text : String) (count : Nat) :
    (Width.ofNat? count).bind (ofLiteral text) =
      (TruthTable.ofLiteralAt text count).toOption.map toWord := by
  rw [TruthTable.ofLiteralAt, ← Width.toOption_ofNat]
  cases Width.ofNat count with
  | error e => rfl
  | ok w => exact ofLiteral_eq text w

/-! ## Other widths -/

/-- Repeating a word is repeating its number. -/
theorem repeatWord_ofNat (value k steps : Nat) :
    repeatWord (BitVec.ofNat 64 value) k steps =
      BitVec.ofNat 64 (TruthTable.repeatPattern value k steps) := by
  induction steps with
  | zero => rfl
  | succ steps ih =>
    rw [repeatWord, ih]
    exact ofNat_or_shiftLeft _ _

/-- A table at another width is the same in words. In the rows of a table that has grown the copies
of its rows are complete, and there is nothing above them, so no mask is missing. -/
theorem resize_toWord (t : TruthTable) (w : Width) : t.toWord.resize w = (t.resize w).toWord := by
  unfold resize
  split
  · next hgrow =>
    change t.width.inputs < w.inputs at hgrow
    refine eq_toWord rfl fun r => ?_
    have hrows : 2 ^ (t.width.inputs + (w.inputs - t.width.inputs)) = w.rows := by
      rw [Width.rows_eq, Nat.add_sub_cancel' (Nat.le_of_lt hgrow)]
    dsimp only [toWord]
    rw [repeatWord_ofNat, BitVec.getLsbD_ofNat,
      TruthTable.testBit_repeatPattern t.value_lt_two_pow, hrows, TruthTable.bit_resize]
    by_cases hr : r < w.rows
    · rw [decide_eq_true (Nat.lt_of_lt_of_le hr w.rows_le), Bool.true_and]
      rfl
    · rw [decide_eq_false hr, Bool.false_and, Bool.false_and, Bool.and_false]
  · next hgrow =>
    change ¬t.width.inputs < w.inputs at hgrow
    -- The rows of the smaller width are among those of the table.
    have hle : w.rows ≤ t.width.rows := Nat.pow_le_pow_right (by decide) (Nat.le_of_not_lt hgrow)
    split
    · refine eq_toWord rfl fun r => ?_
      dsimp only
      rw [BitVec.getLsbD_and, w.getLsbD_wordMask, getLsbD_toWord, TruthTable.bit_resize,
        Bool.and_comm]
      by_cases hr : r < w.rows
      · rw [Nat.mod_eq_of_lt (Nat.lt_of_lt_of_le hr hle)]
      · rw [decide_eq_false hr, Bool.false_and, Bool.false_and]
    · next hshrink =>
      change ¬w.inputs < t.width.inputs at hshrink
      have hw : w = t.width := Width.ext_inputs (by omega)
      rw [hw, TruthTable.resize_self]
      rfl

/-! ## Halves -/

/-- What a pattern leaves out is the same for words and for numbers of 64 bits. -/
theorem ofNat_and_not (value pattern : Nat) :
    BitVec.ofNat 64 value &&& ~~~BitVec.ofNat 64 pattern =
      BitVec.ofNat 64 (value &&& (rowMask maxInputs ^^^ pattern)) := by
  apply BitVec.eq_of_getLsbD_eq
  intro r hr
  have hmask : (rowMask maxInputs).testBit r = true :=
    (testBit_rowMask maxInputs r).trans (decide_eq_true hr)
  rw [BitVec.getLsbD_and, BitVec.getLsbD_not, BitVec.getLsbD_ofNat, BitVec.getLsbD_ofNat,
    BitVec.getLsbD_ofNat, Nat.testBit_and, Nat.testBit_xor, hmask, decide_eq_true hr]
  simp only [Bool.true_and, Bool.true_xor]

/-- What a pattern selects is moved down as in numbers. -/
theorem ofNat_and_shiftRight {value : Nat} (h : value < 2 ^ 64) (pattern n : Nat) :
    (BitVec.ofNat 64 value &&& BitVec.ofNat 64 pattern) >>> n =
      BitVec.ofNat 64 ((value &&& pattern) >>> n) := by
  rw [← BitVec.ofNat_and]
  apply BitVec.eq_of_toNat_eq
  have hlt : value &&& pattern < 2 ^ 64 := Nat.lt_of_le_of_lt Nat.and_le_left h
  have hshift : (value &&& pattern) >>> n < 2 ^ 64 :=
    Nat.lt_of_le_of_lt (Nat.shiftRight_le _ _) hlt
  rw [BitVec.toNat_ushiftRight, BitVec.toNat_ofNat, BitVec.toNat_ofNat, Nat.mod_eq_of_lt hlt,
    Nat.mod_eq_of_lt hshift]

/-- The halves of a table are the same in words, or there are none. -/
theorem cofactors_toWord (t : TruthTable) (i : Nat) :
    t.toWord.cofactors i = (t.cofactors i).map (Prod.map toWord toWord) := by
  by_cases h : 1 ≤ i ∧ i ≤ t.width.inputs
  · have hvalue : t.value < 2 ^ 64 :=
      Nat.lt_of_lt_of_le t.value_lt_two_pow (Nat.pow_le_pow_right (by decide) t.width.rows_le)
    have inside : i - 1 < inputPatterns.length := by
      have h6 : i ≤ 6 := Nat.le_trans h.2 t.width.le_max
      change i - 1 < 6
      omega
    have hpattern : inputPatterns.getD (i - 1) 0 = inputPatterns.get ⟨i - 1, inside⟩ :=
      List.getD_eq_getElem inputPatterns 0 inside
    rw [cofactors, if_pos (show 1 ≤ i ∧ i ≤ t.toWord.width.inputs from h), TruthTable.cofactors,
      dif_pos h, hpattern]
    dsimp only [toWord]
    rw [ofNat_and_not, ofNat_and_shiftRight hvalue, ofNat_or_shiftLeft, ofNat_or_shiftLeft,
      ofWord_ofNat, ofWord_ofNat]
    rfl
  · rw [cofactors, if_neg (show ¬(1 ≤ i ∧ i ≤ t.toWord.width.inputs) from h),
      TruthTable.cofactors, dif_neg h]
    rfl

/-! ## Questions -/

/-- Moving a bit to the end and masking it tells whether it is set. -/
theorem shiftRight_and_one_bne_zero {n : Nat} (hn : 0 < n) (word : BitVec n) (r : Nat) :
    ((word >>> r) &&& 1#n != 0#n) = word.getLsbD r := by
  have hzero : (word >>> r) &&& 1#n = 0#n ↔ word.getLsbD r = false := by
    rw [BitVec.and_one_eq_setWidth_ofBool_getLsbD, BitVec.getLsbD_ushiftRight, Nat.add_zero]
    cases word.getLsbD r with
    | false => simp
    | true =>
      simp [BitVec.toNat_eq]
      omega
  rw [Bool.eq_iff_iff, bne_iff_ne, Ne, hzero, Bool.not_eq_false]

/-- A word carries its table. -/
theorem carries_toWord (t : TruthTable) : t.toWord.Carries t where
  width_eq := rfl
  toNat_eq := t.toNat_toWord
  bit_eq r := by
    rw [bit, shiftRight_and_one_bne_zero (by decide), getLsbD_toWord]
    by_cases hr : r < t.width.rows
    · rw [decide_eq_true (show r < t.toWord.width.rows from hr), Bool.true_and]
    · rw [t.bit_of_rows_le (Nat.le_of_not_lt hr), Bool.and_false]
  constant?_eq := by
    have hzero : t.toWord.word = 0#64 ↔ t.value = 0 := by
      rw [BitVec.toNat_eq, t.toNat_toWord]
      rfl
    have hmask : t.toWord.word = t.width.wordMask ↔ t.value = t.width.mask := by
      have hones : t.width.wordMask.toNat = t.width.mask := by
        rw [Width.wordMask_eq]
        exact toNat_ofNat_rowMask t.width.le_max
      rw [BitVec.toNat_eq, t.toNat_toWord, hones]
    have hwidth : t.toWord.width = t.width := rfl
    simp only [constant?, TruthTable.constant?, hwidth, hzero, hmask]

end TableWord

/-! ## Runs -/

/-- A sequence of calls that gives a table. A call that is refused gives none. -/
inductive TableRun where
  /-- The table of a word at a number of inputs. -/
  | value (word : BitVec 64) (count : Nat)
  /-- A constant table. -/
  | constant (output : Bool) (width : Width)
  /-- The table of a literal at a number of inputs. -/
  | literal (text : String) (count : Nat)
  /-- The table of a stored record, be it the record of a table or any other. -/
  | stored (record : TableRecord)
  /-- The table of an equation at a number of inputs. -/
  | equation (e : Equation) (count : Nat)
  /-- A table at another number of inputs. -/
  | resize (run : TableRun) (count : Nat)
  /-- The half of a table with an input held at a value. -/
  | half (run : TableRun) (input : Nat) (held : Bool)

namespace TableRun

/-- The table that a run gives. -/
def table? : TableRun → Option TruthTable
  | value word count => (TruthTable.ofValueAt word.toNat count).toOption
  | constant output width => some (.constant output width)
  | literal text count => (TruthTable.ofLiteralAt text count).toOption
  | stored record => (TruthTable.ofRecord record).toOption
  | equation e count => (e.toTableAt count).toOption
  | resize run count => run.table?.bind fun t => (t.resizeAt count).toOption
  | half run input held =>
    run.table?.bind fun t => (t.cofactors input).map fun (low, high) => if held then high else low

/-- What the same run gives in words. -/
def word? : TableRun → Option TableWord
  | value word count => (Width.ofNat? count).map (.ofWord word)
  | constant output width => some (.constant output width)
  | literal text count => (Width.ofNat? count).bind (TableWord.ofLiteral text)
  | stored record => (Width.ofNat? record.inputs).bind (TableWord.ofLiteral record.init)
  | equation e count =>
    (Width.ofNat? count).bind fun w => if e.badInput? = none then some (.ofEquation e w) else none
  | resize run count => run.word?.bind fun s => (Width.ofNat? count).map s.resize
  | half run input held =>
    run.word?.bind fun s => (s.cofactors input).map fun (low, high) => if held then high else low

/-- In words a run gives the word of its table, and what is refused is refused. -/
theorem word?_eq (a : TableRun) : a.word? = a.table?.map TruthTable.toWord := by
  induction a with
  | value word count =>
    rw [word?, table?, TruthTable.ofValueAt, ← Width.toOption_ofNat]
    cases Width.ofNat count with
    | error e => rfl
    | ok w => exact congrArg some (TableWord.ofWord_toWord word w)
  | constant output width => exact congrArg some (TableWord.constant_eq output width)
  | literal text count => exact TableWord.ofLiteralAt_eq text count
  | stored record => exact TableWord.ofLiteralAt_eq record.init record.inputs
  | equation e count =>
    rw [word?, table?, Equation.toTableAt, Equation.checked, ← Width.toOption_ofNat]
    cases Width.ofNat count with
    | error e => rfl
    | ok w =>
      cases e.badInput? with
      | some index => rfl
      | none => exact congrArg some (TableWord.ofEquation_eq e w)
  | resize run count ih =>
    rw [word?, table?, ih]
    cases run.table? with
    | none => rfl
    | some t =>
      dsimp only [Option.map_some, Option.bind_some]
      rw [TruthTable.resizeAt, ← Width.toOption_ofNat]
      cases Width.ofNat count with
      | error e => rfl
      | ok w => exact congrArg some (TableWord.resize_toWord t w)
  | half run input held ih =>
    rw [word?, table?, ih]
    cases run.table? with
    | none => rfl
    | some t =>
      dsimp only [Option.map_some, Option.bind_some]
      rw [TableWord.cofactors_toWord, Option.map_map, Option.map_map]
      cases held <;> rfl

/-- Any run that gives a table gives in words a word that carries it: the width and the value of the
table, no bit above its rows, the same output in every row and the same answer to whether it is
constant. So for any two runs the words are equal exactly if the tables are, which is exactly if the
widths and the outputs in all rows are; and a table is found to be constant exactly if every row has
the output. -/
theorem canonical_of_runs {a b : TableRun} {t u : TruthTable} (ha : a.table? = some t)
    (hb : b.table? = some u) :
    ∃ s p, a.word? = some s ∧ b.word? = some p ∧ s.Carries t ∧ p.Carries u ∧
      (∀ r, t.width.rows ≤ r → s.word.getLsbD r = false ∧ t.value.testBit r = false) ∧
      (s = p ↔ t = u) ∧
      (t = u ↔ t.width = u.width ∧ ∀ r < t.width.rows, t.bit r = u.bit r) ∧
      ∀ output, t.constant? = some output ↔ ∀ r < t.width.rows, t.bit r = output := by
  refine ⟨t.toWord, u.toWord, ?_, ?_, TableWord.carries_toWord t, TableWord.carries_toWord u,
    fun r hr => ?_, TruthTable.toWord_inj, ⟨?_, ?_⟩, fun _ => TruthTable.constant?_eq_some_iff⟩
  · rw [word?_eq, ha, Option.map_some]
  · rw [word?_eq, hb, Option.map_some]
  · rw [TruthTable.getLsbD_toWord]
    exact ⟨t.bit_of_rows_le hr, t.bit_of_rows_le hr⟩
  · rintro rfl
    exact ⟨rfl, fun _ _ => rfl⟩
  · rintro ⟨hw, hbits⟩
    exact TruthTable.ext_bit hw hbits

/-- The exclusive or of two inputs, grown to six inputs and with the first one held at 1, is the
inverse of the second input, grown to six inputs; in words it is the same word. -/
theorem canonical_of_runs_grown :
    ∃ s, (half (resize (value 6#64 2) 6) 1 true).word? = some s ∧
      (resize (equation (.inverted 2) 2) 6).word? = some s ∧ s.word = 0x3333333333333333#64 := by
  have ha : (half (resize (value 6#64 2) 6) 1 true).table? =
      some ⟨Width.six, 0x3333333333333333, by decide⟩ := by decide +kernel
  have hb : (resize (equation (.inverted 2) 2) 6).table? =
      some ⟨Width.six, 0x3333333333333333, by decide⟩ := by decide +kernel
  obtain ⟨s, p, hs, hp, hcarries, -, -, hword, -⟩ := canonical_of_runs ha hb
  have hsame : s = p := hword.mpr rfl
  rw [← hsame] at hp
  exact ⟨s, hs, hp, BitVec.eq_of_toNat_eq hcarries.toNat_eq⟩

end TableRun

end LutLogic
