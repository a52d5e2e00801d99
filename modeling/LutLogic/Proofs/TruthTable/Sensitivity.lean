import LutLogic.Proofs.TruthTable.Rows
import Mathlib.Data.Nat.Bitwise

/-!
# The inputs that a truth table depends on

An input matters if some row gives another output when the input alone is changed. `holdPin` is the
row with one input held at a value, and `cofactors_eq_some` says that the two halves of a table list
its outputs with an input held at 0 and at 1. `mem_requiredInputs` turns the comparison of these
halves into rows, which is the form that proofs about functions of the inputs use.
-/

namespace LutLogic

/-! ## Holding a pin -/

/-- Where bit `k` is 0, adding `2 ^ k` sets it and changes no other bit. -/
theorem add_two_pow_eq_xor {x k : Nat} (h : x.testBit k = false) : x + 2 ^ k = x ^^^ 2 ^ k := by
  have heven : Even (x / 2 ^ k) := by
    rw [Nat.testBit_eq_decide_div_mod_eq, decide_eq_false_iff_not] at h
    exact Nat.even_iff.mpr (by omega)
  have hdiv : (x ^^^ 2 ^ k) / 2 ^ k = x / 2 ^ k + 1 := by
    rw [Nat.xor_div_two_pow, Nat.div_self (Nat.two_pow_pos k), Nat.xor_one_of_even heven]
  have hmod : (x ^^^ 2 ^ k) % 2 ^ k = x % 2 ^ k := by
    rw [Nat.xor_mod_two_pow, Nat.mod_self, Nat.xor_zero]
  calc x + 2 ^ k = 2 ^ k * (x / 2 ^ k) + x % 2 ^ k + 2 ^ k := by rw [Nat.div_add_mod]
    _ = 2 ^ k * (x / 2 ^ k + 1) + x % 2 ^ k := by rw [Nat.mul_succ]; omega
    _ = 2 ^ k * ((x ^^^ 2 ^ k) / 2 ^ k) + (x ^^^ 2 ^ k) % 2 ^ k := by rw [hdiv, hmod]
    _ = x ^^^ 2 ^ k := Nat.div_add_mod _ _

/-- Row `row` with pin `i` held at `v`. -/
def holdPin (row i : Nat) (v : Bool) : Nat :=
  if row.testBit (i - 1) = v then row else row ^^^ 2 ^ (i - 1)

/-- Holding a pin gives its bit the value and leaves the others. -/
theorem testBit_holdPin (row i : Nat) (v : Bool) (j : Nat) :
    (holdPin row i v).testBit j = if j = i - 1 then v else row.testBit j := by
  unfold holdPin
  by_cases hj : j = i - 1
  · subst hj
    rw [if_pos rfl]
    split
    · assumption
    · next hv =>
      rw [Nat.testBit_xor, Nat.testBit_two_pow_self, Bool.xor_true]
      exact (Bool.not_eq.mpr hv)
  · rw [if_neg hj]
    split
    · rfl
    · rw [Nat.testBit_xor, Nat.testBit_two_pow_of_ne (Ne.symm hj), Bool.xor_false]

/-- A row of a width stays one when one of its pins is held. -/
theorem holdPin_lt {row i n : Nat} (hrow : row < 2 ^ n) (h1 : 1 ≤ i) (hi : i ≤ n) (v : Bool) :
    holdPin row i v < 2 ^ n := by
  unfold holdPin
  split
  · exact hrow
  · exact Nat.xor_lt_two_pow hrow (Nat.pow_lt_pow_right (by decide) (by omega))

/-- Holding a pin of the first `n` does not reach beyond them. -/
theorem holdPin_mod {i n : Nat} (h1 : 1 ≤ i) (hi : i ≤ n) (row : Nat) (v : Bool) :
    holdPin row i v % 2 ^ n = holdPin (row % 2 ^ n) i v := by
  apply Nat.eq_of_testBit_eq
  intro j
  rw [Nat.testBit_mod_two_pow, testBit_holdPin, testBit_holdPin, Nat.testBit_mod_two_pow]
  by_cases hj : j = i - 1
  · have hlt : j < n := by omega
    rw [if_pos hj, if_pos hj, decide_eq_true hlt, Bool.true_and]
  · rw [if_neg hj, if_neg hj]

/-- Holding a pin beyond the first `n` does not change them. -/
theorem holdPin_mod_of_lt {i n : Nat} (hi : n < i) (row : Nat) (v : Bool) :
    holdPin row i v % 2 ^ n = row % 2 ^ n := by
  apply Nat.eq_of_testBit_eq
  intro j
  rw [Nat.testBit_mod_two_pow, Nat.testBit_mod_two_pow, testBit_holdPin]
  by_cases hj : j < n
  · rw [if_neg (by omega)]
  · rw [decide_eq_false hj, Bool.false_and, Bool.false_and]

/-- Holding a pin at 1 is holding it at 0 and adding its place. -/
theorem holdPin_false_add (row i : Nat) :
    holdPin row i false + 2 ^ (i - 1) = holdPin row i true := by
  have hclear : (holdPin row i false).testBit (i - 1) = false := by
    rw [testBit_holdPin, if_pos rfl]
  rw [add_two_pow_eq_xor hclear]
  apply Nat.eq_of_testBit_eq
  intro j
  rw [Nat.testBit_xor, Nat.testBit_two_pow, testBit_holdPin, testBit_holdPin]
  by_cases hj : j = i - 1
  · simp [hj]
  · simp [hj, Ne.symm hj]

/-- Holding a pin at the value that it has changes nothing. -/
theorem holdPin_self {row i : Nat} {v : Bool} (h : row.testBit (i - 1) = v) :
    holdPin row i v = row :=
  if_pos h

/-- Of two values at which a pin is held the later one counts. -/
theorem holdPin_holdPin (row i : Nat) (u v : Bool) :
    holdPin (holdPin row i u) i v = holdPin row i v := by
  apply Nat.eq_of_testBit_eq
  intro j
  rw [testBit_holdPin, testBit_holdPin, testBit_holdPin]
  by_cases hj : j = i - 1
  · rw [if_pos hj, if_pos hj]
  · rw [if_neg hj, if_neg hj, if_neg hj]

/-- Two pins are held in either order. -/
theorem holdPin_comm {i j : Nat} (hi : 1 ≤ i) (hj : 1 ≤ j) (hne : i ≠ j) (row : Nat)
    (u v : Bool) : holdPin (holdPin row i u) j v = holdPin (holdPin row j v) i u := by
  apply Nat.eq_of_testBit_eq
  intro k
  rw [testBit_holdPin, testBit_holdPin, testBit_holdPin, testBit_holdPin]
  by_cases hk : k = i - 1
  · -- A bit is the place of one of the two pins at most.
    have hother : k ≠ j - 1 := by omega
    rw [if_neg hother, if_pos hk, if_pos hk]
  · rw [if_neg hk, if_neg hk]

/-- A value without rows in which a pin is 1, copied to these rows, does not depend on the pin. -/
theorem testBit_or_shiftLeft {value i : Nat}
    (h : ∀ r, r.testBit (i - 1) = true → value.testBit r = false) (r : Nat) :
    (value ||| value <<< 2 ^ (i - 1)).testBit r = value.testBit (holdPin r i false) := by
  rw [Nat.testBit_or, Nat.testBit_shiftLeft]
  cases hr : r.testBit (i - 1) with
  | false =>
    -- Below this row by the place of the pin, the pin is 1.
    have hcopy : (decide (r ≥ 2 ^ (i - 1)) && value.testBit (r - 2 ^ (i - 1))) = false := by
      rw [Bool.and_eq_false_imp]
      intro hle
      refine h _ ?_
      have hadd := Nat.testBit_two_pow_add_eq (r - 2 ^ (i - 1)) (i - 1)
      rw [Nat.add_sub_cancel' (of_decide_eq_true hle), hr] at hadd
      simpa using hadd.symm
    rw [hcopy, Bool.or_false, holdPin_self hr]
  | true =>
    have hadd : holdPin r i false + 2 ^ (i - 1) = r := by
      rw [holdPin_false_add, holdPin_self hr]
    have hsub : r - 2 ^ (i - 1) = holdPin r i false := by omega
    have hle : r ≥ 2 ^ (i - 1) := by omega
    rw [h r hr, Bool.false_or, decide_eq_true hle, Bool.true_and, hsub]

/-- A width has at most 64 rows. -/
theorem Width.rows_le (w : Width) : w.rows ≤ 64 :=
  Nat.pow_le_pow_right (by decide) w.le_max

namespace TruthTable

/-! ## The halves of a table -/

/-- Each pattern lists the values of its input in the rows of six inputs. -/
theorem testBit_inputPatterns : ∀ (i : Fin inputPatterns.length) (r : Fin 64),
    (inputPatterns.get i).testBit r = (r : Nat).testBit i := by
  decide

/-- The two halves of a table that an input selects by its pattern, copied to the other rows. -/
theorem cofactors_eq (t : TruthTable) {i : Nat} (h : 1 ≤ i ∧ i ≤ t.width.inputs) :
    ∃ pattern, (∀ r < 64, pattern.testBit r = r.testBit (i - 1)) ∧
      t.cofactors i =
        let low := t.value &&& (rowMask maxInputs ^^^ pattern)
        let high := (t.value &&& pattern) >>> 2 ^ (i - 1)
        some (ofValue (low ||| low <<< 2 ^ (i - 1)) t.width,
          ofValue (high ||| high <<< 2 ^ (i - 1)) t.width) := by
  have inside : i - 1 < inputPatterns.length := by
    have h6 : i ≤ 6 := Nat.le_trans h.2 t.width.le_max
    change i - 1 < 6
    omega
  refine ⟨inputPatterns.get ⟨i - 1, inside⟩, fun r hr => ?_, ?_⟩
  · exact testBit_inputPatterns ⟨i - 1, inside⟩ ⟨r, hr⟩
  · rw [cofactors, dif_pos h]
    rfl

/-- An input that a table has splits it into two tables, which list its outputs with the input held
at 0 and at 1. -/
theorem cofactors_eq_some (t : TruthTable) {i : Nat} (h : 1 ≤ i ∧ i ≤ t.width.inputs) :
    ∃ low high, t.cofactors i = some (low, high) ∧ low.width = t.width ∧ high.width = t.width ∧
      ∀ r < t.width.rows,
        low.bit r = t.bit (holdPin r i false) ∧ high.bit r = t.bit (holdPin r i true) := by
  have h64 (r : Nat) (hr : t.value.testBit r = true) : r < 64 := by
    refine Nat.lt_of_not_le fun hle => ?_
    have hout : t.value.testBit r = false := t.bit_of_rows_le (Nat.le_trans t.width.rows_le hle)
    rw [hr] at hout
    cases hout
  obtain ⟨pattern, hpattern, hcof⟩ := t.cofactors_eq h
  -- Neither half has a row in which the input is 1.
  have hlow (r : Nat) : (t.value &&& (rowMask maxInputs ^^^ pattern)).testBit r =
      (t.value.testBit r && !r.testBit (i - 1)) := by
    rw [Nat.testBit_and, Nat.testBit_xor, testBit_rowMask]
    cases hr : t.value.testBit r with
    | false => rfl
    | true =>
      have hmask : decide (r < 2 ^ maxInputs) = true := decide_eq_true (h64 r hr)
      rw [hpattern r (h64 r hr), hmask, Bool.true_and, Bool.true_and, Bool.true_xor]
  have hhigh (r : Nat) : ((t.value &&& pattern) >>> 2 ^ (i - 1)).testBit r =
      (t.value.testBit (2 ^ (i - 1) + r) && !r.testBit (i - 1)) := by
    rw [Nat.testBit_shiftRight, Nat.testBit_and]
    cases hr : t.value.testBit (2 ^ (i - 1) + r) with
    | false => rfl
    | true => rw [hpattern _ (h64 _ hr), Nat.testBit_two_pow_add_eq]
  refine ⟨_, _, hcof, rfl, rfl, fun r hr => ?_⟩
  have hclear : (holdPin r i false).testBit (i - 1) = false := by
    rw [testBit_holdPin, if_pos rfl]
  have hset : holdPin r i true = 2 ^ (i - 1) + holdPin r i false := by
    rw [Nat.add_comm, holdPin_false_add]
  rw [bit_ofValue, bit_ofValue, decide_eq_true hr, Bool.true_and, Bool.true_and,
    testBit_or_shiftLeft fun s hs => by rw [hlow, hs, Bool.not_true, Bool.and_false],
    testBit_or_shiftLeft fun s hs => by rw [hhigh, hs, Bool.not_true, Bool.and_false],
    hlow, hhigh, hclear, hset, Bool.not_false, Bool.and_true, Bool.and_true]
  exact ⟨rfl, rfl⟩

/-! ## Inputs that matter -/

/-- An input matters exactly if the table has it and some row tells its two values apart. -/
theorem dependsOn_iff {t : TruthTable} {i : Nat} :
    t.dependsOn i = true ↔ (1 ≤ i ∧ i ≤ t.width.inputs) ∧
      ∃ r < t.width.rows, t.bit (holdPin r i false) ≠ t.bit (holdPin r i true) := by
  by_cases h : 1 ≤ i ∧ i ≤ t.width.inputs
  · obtain ⟨low, high, hcof, hlw, hhw, hbits⟩ := t.cofactors_eq_some h
    rw [dependsOn, hcof]
    simp only [h, and_self, true_and, bne_iff_ne, ne_eq]
    constructor
    · intro hne
      refine Decidable.byContradiction fun hall => hne (ext_bit (hlw.trans hhw.symm) fun r hr => ?_)
      rw [hlw] at hr
      obtain ⟨hl, hh⟩ := hbits r hr
      rw [hl, hh]
      refine Decidable.byContradiction fun hdiff => hall ⟨r, hr, hdiff⟩
    · rintro ⟨r, hr, hdiff⟩ heq
      obtain ⟨hl, hh⟩ := hbits r hr
      exact hdiff (by rw [← hl, ← hh, heq])
  · rw [dependsOn, cofactors, dif_neg h]
    simp [h]

/-- The required inputs are those that matter. -/
theorem mem_requiredInputs {t : TruthTable} {i : Nat} :
    i ∈ t.requiredInputs ↔ (1 ≤ i ∧ i ≤ t.width.inputs) ∧
      ∃ r < t.width.rows, t.bit (holdPin r i false) ≠ t.bit (holdPin r i true) := by
  rw [requiredInputs, List.mem_filter, List.mem_range'_1, dependsOn_iff]
  constructor
  · exact fun h => h.2
  · exact fun h => ⟨by omega, h⟩

/-- The required inputs are listed in ascending order. -/
theorem pairwise_requiredInputs (t : TruthTable) : t.requiredInputs.Pairwise (· < ·) :=
  List.Pairwise.filter _ (List.pairwise_lt_range' 1)

/-- At most the inputs of the width are required. -/
theorem length_requiredInputs_le (t : TruthTable) : t.requiredInputs.length ≤ t.width.inputs := by
  have h : t.requiredInputs.length ≤ (List.range' 1 t.width.inputs).length :=
    List.length_filter_le _ _
  rwa [List.length_range'] at h

end TruthTable

end LutLogic
