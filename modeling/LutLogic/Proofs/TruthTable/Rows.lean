import LutLogic.TruthTable.Basic
import Mathlib.Algebra.Group.Nat.Defs

/-!
# The rows of a truth table

The functions on truth tables work on whole words: masks, shifts and bitwise operations. The lemmas
here say what they do to each row, so that proofs about functions of the inputs never see a word.
The definitions take powers by `Nat.pow`, which needs no algebra; `rowMask_eq`, `Width.rows_eq` and
`TruthTable.value_lt_two_pow` give them the form that lemmas about powers have. `ext_bit` goes back
from rows to tables, and `bit_resize` is the rule for another width: row `r` of the resized table is
the row of the table whose assignment agrees with `r` on the inputs that the table has.
-/

namespace LutLogic

/-- The mask of `k` inputs has `2 ^ k` ones. -/
theorem rowMask_eq (k : Nat) : rowMask k = 2 ^ 2 ^ k - 1 := rfl

/-- The rows of a width are the assignments of its inputs. -/
theorem Width.rows_eq (w : Width) : w.rows = 2 ^ w.inputs := rfl

/-- A row over `k + 1` inputs is the row over the first `k`, raised by `2 ^ k` if the last one
is set. -/
theorem mod_two_pow_succ (row k : Nat) :
    row % 2 ^ (k + 1) = row % 2 ^ k + if row.testBit k then 2 ^ k else 0 := by
  rw [Nat.mod_pow_succ, Nat.testBit_eq_decide_div_mod_eq]
  rcases Nat.mod_two_eq_zero_or_one (row / 2 ^ k) with h | h
  · simp [h]
  · simp [h]

/-- The mask of `k` inputs has a 1 in each of its rows. -/
theorem testBit_rowMask (k r : Nat) : (rowMask k).testBit r = decide (r < 2 ^ k) := by
  rw [rowMask_eq, Nat.testBit_two_pow_sub_one]

/-- The mask of `k` inputs keeps the rows below `2 ^ k`. -/
theorem testBit_and_rowMask (value k r : Nat) :
    (value &&& rowMask k).testBit r = (decide (r < 2 ^ k) && value.testBit r) := by
  rw [rowMask_eq, Nat.and_two_pow_sub_one_eq_mod, Nat.testBit_mod_two_pow]

/-- A masked value fits the rows of the mask. -/
theorem and_rowMask_lt (value k : Nat) : value &&& rowMask k < 2 ^ 2 ^ k := by
  rw [rowMask_eq, Nat.and_two_pow_sub_one_eq_mod]
  exact Nat.mod_lt _ (Nat.two_pow_pos _)

namespace TruthTable

/-- The value of a table has no bit above its rows. -/
theorem value_lt_two_pow (t : TruthTable) : t.value < 2 ^ t.width.rows := t.value_lt

/-- A table made of a value has the bits of the value in its rows. -/
theorem bit_ofValue (value : Nat) (w : Width) (r : Nat) :
    (ofValue value w).bit r = (decide (r < w.rows) && value.testBit r) :=
  Nat.testBit_mod_two_pow value w.rows r

/-- Beyond the last row a table gives 0. -/
theorem bit_of_rows_le (t : TruthTable) {r : Nat} (h : t.width.rows ≤ r) : t.bit r = false :=
  Nat.testBit_lt_two_pow
    (Nat.lt_of_lt_of_le t.value_lt_two_pow (Nat.pow_le_pow_right (by decide) h))

/-- Two tables of one width with the same rows are equal. -/
theorem ext_bit {t u : TruthTable} (hw : t.width = u.width)
    (h : ∀ r < t.width.rows, t.bit r = u.bit r) : t = u := by
  have hv : t.value = u.value := by
    apply Nat.eq_of_testBit_eq
    intro r
    by_cases hr : r < t.width.rows
    · exact h r hr
    · have ht := t.bit_of_rows_le (Nat.le_of_not_lt hr)
      have hu := u.bit_of_rows_le (hw ▸ Nat.le_of_not_lt hr)
      exact ht.trans hu.symm
  cases t
  cases u
  simp_all

/-- The value is 0 exactly if every row is. -/
theorem value_eq_zero_iff {t : TruthTable} :
    t.value = 0 ↔ ∀ r < t.width.rows, t.bit r = false := by
  constructor
  · intro h r _
    rw [bit, h, Nat.zero_testBit]
  · intro h
    apply Nat.eq_of_testBit_eq
    intro r
    rw [Nat.zero_testBit]
    by_cases hr : r < t.width.rows
    · exact h r hr
    · exact t.bit_of_rows_le (Nat.le_of_not_lt hr)

/-- The value is the mask of the width exactly if every row is 1. -/
theorem value_eq_mask_iff {t : TruthTable} :
    t.value = t.width.mask ↔ ∀ r < t.width.rows, t.bit r = true := by
  have hmask (r : Nat) : t.width.mask.testBit r = decide (r < t.width.rows) :=
    testBit_rowMask t.width.inputs r
  constructor
  · intro h r hr
    rw [bit, h, hmask, decide_eq_true hr]
  · intro h
    apply Nat.eq_of_testBit_eq
    intro r
    rw [hmask]
    by_cases hr : r < t.width.rows
    · rw [decide_eq_true hr]
      exact h r hr
    · rw [decide_eq_false hr]
      exact t.bit_of_rows_le (Nat.le_of_not_lt hr)

/-- A table has a constant output exactly if every row has it. -/
theorem constant?_eq_some_iff {t : TruthTable} {output : Bool} :
    t.constant? = some output ↔ ∀ r < t.width.rows, t.bit r = output := by
  -- Rows that all have one output determine it, for there is at least one row.
  have hsame {v : Bool} (hv : ∀ r < t.width.rows, t.bit r = v) :
      some v = some output ↔ ∀ r < t.width.rows, t.bit r = output := by
    rw [Option.some.injEq]
    constructor
    · rintro rfl
      exact hv
    · intro h
      rw [← hv 0 t.width.rows_pos, h 0 t.width.rows_pos]
  unfold constant?
  split
  · next hzero => exact hsame (value_eq_zero_iff.mp hzero)
  · next hzero =>
    split
    · next hones => exact hsame (value_eq_mask_iff.mp hones)
    · next hones =>
      constructor
      · nofun
      · intro h
        cases output with
        | false => exact absurd (value_eq_zero_iff.mpr h) hzero
        | true => exact absurd (value_eq_mask_iff.mpr h) hones

/-- A pattern over `k` inputs that is repeated over `steps` more has in row `r` what it had in the
row of the first `k` inputs. -/
theorem testBit_repeatPattern {value k : Nat} (hv : value < 2 ^ 2 ^ k) (steps r : Nat) :
    (repeatPattern value k steps).testBit r =
      (decide (r < 2 ^ (k + steps)) && value.testBit (r % 2 ^ k)) := by
  induction steps generalizing r with
  | zero =>
    by_cases hr : r < 2 ^ k
    · simp [repeatPattern, hr, Nat.mod_eq_of_lt hr]
    · have hb : value.testBit r = false :=
        Nat.testBit_lt_two_pow
          (Nat.lt_of_lt_of_le hv (Nat.pow_le_pow_right (by decide) (Nat.le_of_not_lt hr)))
      simp [repeatPattern, hr, hb]
  | succ steps ih =>
    have hstep : repeatPattern value k (steps + 1) =
        repeatPattern value k steps ||| repeatPattern value k steps <<< 2 ^ (k + steps) := rfl
    have hdouble : 2 ^ (k + (steps + 1)) = 2 ^ (k + steps) + 2 ^ (k + steps) := by
      rw [← Nat.add_assoc, Nat.pow_succ, Nat.mul_two]
    have hperiod : 2 ^ k ∣ 2 ^ (k + steps) := Nat.pow_dvd_pow 2 (Nat.le_add_right k steps)
    rw [hstep, Nat.testBit_or, Nat.testBit_shiftLeft, ih, ih, hdouble]
    rcases Nat.lt_or_ge r (2 ^ (k + steps)) with hr | hr
    · -- The rows so far: the copy above them does not reach here.
      have hr' : r < 2 ^ (k + steps) + 2 ^ (k + steps) := by omega
      simp [hr, hr', Nat.not_le.mpr hr]
    · -- The rows of the copy: the same row of the pattern, a multiple of its length further on.
      have hmod : (r - 2 ^ (k + steps)) % 2 ^ k = r % 2 ^ k := by
        obtain ⟨m, hm⟩ := hperiod
        rw [hm, Nat.sub_mul_mod (hm ▸ hr)]
      have hsub : r - 2 ^ (k + steps) < 2 ^ (k + steps) ↔
          r < 2 ^ (k + steps) + 2 ^ (k + steps) := by omega
      simp [hr, Nat.not_lt.mpr hr, hmod, hsub]

/-- Row `r` of a resized table is the row of the table that agrees with `r` on its inputs. -/
theorem bit_resize (t : TruthTable) (w : Width) (r : Nat) :
    (t.resize w).bit r = (decide (r < w.rows) && t.bit (r % t.width.rows)) := by
  have hrow : r < w.rows → r < 2 ^ (t.width.inputs + (w.inputs - t.width.inputs)) := by
    intro hr
    exact Nat.lt_of_lt_of_le hr (Nat.pow_le_pow_right (by decide) (by omega))
  rw [resize, bit_ofValue, testBit_repeatPattern t.value_lt_two_pow]
  by_cases hr : r < w.rows
  · simp [hrow hr, bit, Width.rows_eq]
  · simp [hr]

/-- A table at its own width is itself. -/
theorem resize_self (t : TruthTable) : t.resize t.width = t := by
  refine ext_bit rfl fun r hr => ?_
  change r < t.width.rows at hr
  rw [bit_resize, Nat.mod_eq_of_lt hr]
  simp [hr]

end TruthTable

end LutLogic
