import LutLogic.Decomposition
import LutLogic.Proofs.Equation.Pins
import LutLogic.Proofs.TruthTable.Rows

/-!
# The equation of a table has the table's rows

`bit_toTable` says that the table of an equation lists its outputs, and `evaluate_ofRows` that the
equation of a table has the outputs that the table lists, for every row and not only those of the
table: bits of a row beyond the table's inputs do not matter. Together they make decoding and then
encoding exact at every width, the table's own or another one, which is the same as resizing the
table.

The induction for `evaluate_ofRows` is on the number of inputs. `testBit_row_succ` is its step on
the side of the table, splitting the rows into those where the highest input is 0 and those where it
is 1, and `evaluate_select` its step on the side of the equation.
-/

namespace LutLogic

/-- The pin after the first `k` is bit `k` of the row. -/
theorem pinValue_succ {k : Nat} (hk : k < maxRowPin) (row : Nat) :
    pinValue row (k + 1) = row.testBit k := by
  have hrange : 1 ≤ k + 1 ∧ k + 1 ≤ maxRowPin := ⟨Nat.le_add_left 1 k, hk⟩
  simp [pinValue, hrange]

/-- A row has a value for every pin of a width. -/
theorem Width.inputs_le_maxRowPin (w : Width) : w.inputs ≤ maxRowPin :=
  Nat.le_trans w.le_max (by decide)

/-- A row over `k + 1` inputs is looked up in one half of the value: in the upper one if the last
input is set, and otherwise in the lower one. -/
theorem testBit_row_succ (value k row : Nat) :
    value.testBit (row % 2 ^ (k + 1)) =
      if row.testBit k then (value >>> 2 ^ k &&& rowMask k).testBit (row % 2 ^ k)
      else (value &&& rowMask k).testBit (row % 2 ^ k) := by
  have hlt : row % 2 ^ k < 2 ^ k := Nat.mod_lt _ (Nat.two_pow_pos k)
  rw [testBit_and_rowMask, testBit_and_rowMask, Nat.testBit_shiftRight, mod_two_pow_succ]
  split
  · rw [Nat.add_comm]
    simp [hlt]
  · simp [hlt]

namespace Equation

/-! ## Encoding -/

/-- Bit `r` of the outputs below `rows` is the output in row `r`. -/
theorem testBit_rowBits (e : Equation) (rows r : Nat) :
    (e.rowBits rows).testBit r = (decide (r < rows) && e.evaluate r) := by
  induction rows with
  | zero => simp [rowBits]
  | succ rows ih =>
    have hbit : ((e.evaluate rows).toNat <<< rows).testBit r =
        (decide (r = rows) && e.evaluate r) := by
      rw [Nat.testBit_shiftLeft, Nat.testBit_bool_toNat]
      by_cases hr : r = rows
      · subst hr
        simp
      · have hout : ¬(rows ≤ r ∧ r - rows = 0) := by omega
        simp only [hr, decide_false, Bool.false_and, ← Bool.and_assoc, ← Bool.decide_and, hout]
    have hlt : decide (r < rows + 1) = (decide (r < rows) || decide (r = rows)) := by
      rw [← Bool.decide_or, decide_eq_decide]
      exact Nat.lt_succ_iff_lt_or_eq
    rw [rowBits, Nat.testBit_or, ih, hbit, hlt, Bool.and_or_distrib_right]

/-- The table of an equation has its output in every row. -/
theorem bit_toTable (e : Equation) (w : Width) (r : Nat) :
    (e.toTable w).bit r = (decide (r < w.rows) && e.evaluate r) := by
  rw [toTable, TruthTable.bit_ofValue, testBit_rowBits, ← Bool.and_assoc, Bool.and_self]

/-- In its own rows the table of an equation has the output of the equation. -/
theorem bit_toTable_of_lt {e : Equation} {w : Width} {r : Nat} (h : r < w.rows) :
    (e.toTable w).bit r = e.evaluate r := by
  rw [bit_toTable, decide_eq_true h, Bool.true_and]

/-- For an equation over `A1` to `A6` only the count can be refused. -/
theorem Within.toTableAt {e : Equation} (h : e.Within maxInputs) (count : Nat) :
    e.toTableAt count = (Width.ofNat count).map e.toTable := by
  unfold Equation.toTableAt
  rw [h.checked]
  cases Width.ofNat count <;> rfl

/-! ## Decoding -/

/-- Only a constant has a constant output. -/
theorem constant?_eq_some_iff {e : Equation} {output : Bool} :
    e.constant? = some output ↔ e = constant output := by
  cases e <;> simp [constant?]

/-- The joined equation is one of its parts, as the input selects. -/
theorem evaluate_select (input row : Nat) (low high : Equation) :
    (select input low high).evaluate row =
      if pinValue row input then high.evaluate row else low.evaluate row := by
  have hconstant {e : Equation} {output : Bool} (h : e.constant? = some output) :
      e.evaluate row = output := by
    rw [constant?_eq_some_iff.mp h, evaluate_constant]
  unfold select
  -- A part that is a constant is not in the joined equation: its output is in the shape.
  split
  · next hl hh => simp [hconstant hl, hconstant hh]
  · next hl hh => simp [hconstant hl, hconstant hh]
  · next hl _ => simp [hconstant hl]
  · next hh _ _ => simp [hconstant hh]
  · next hl _ => simp [hconstant hl]
  · next hh _ _ => simp [hconstant hh]
  · rw [evaluate_or, evaluate_and, evaluate_and, evaluate_inverted, evaluate_plain]
    cases pinValue row input <;> simp

/-- The equation of a value has in every row the bit of the value that the first `k` inputs
select. -/
theorem evaluate_ofRows {k value : Nat} (hk : k ≤ maxRowPin) (hv : value < 2 ^ 2 ^ k) (row : Nat) :
    (ofRows k value).evaluate row = value.testBit (row % 2 ^ k) := by
  fun_induction ofRows k value with
  | case1 value =>
    -- Without inputs there is one row.
    have hv' : value = 0 ∨ value = 1 := by simp at hv; omega
    rcases hv' with rfl | rfl <;> simp [evaluate, rowMask, Nat.mod_one]
  | case2 k => simp [evaluate]
  | case3 k =>
    rw [rowMask_eq, Nat.testBit_two_pow_sub_one]
    simp [evaluate, Nat.mod_lt _ (Nat.two_pow_pos (k + 1))]
  | case4 k value hzero hones low high heq ih =>
    -- The halves agree, so the last input does not matter.
    have hsame : value >>> 2 ^ k &&& rowMask k = value &&& rowMask k := heq.symm
    rw [testBit_row_succ, ih (by omega) (and_rowMask_lt value k), hsame, ite_self]
  | case5 k value hzero hones low high hne ihl ihh =>
    have hhigh : high = value >>> 2 ^ k &&& rowMask k := rfl
    rw [testBit_row_succ, evaluate_select, pinValue_succ hk,
      ihl (by omega) (and_rowMask_lt value k), ihh (by omega) (and_rowMask_lt (value >>> 2 ^ k) k),
      hhigh]

/-- The joined equation mentions its input and the pins of both parts. -/
theorem mem_usedInputs_select {i j : Nat} {low high : Equation} :
    j ∈ (select i low high).usedInputs ↔ j = i ∨ j ∈ low.usedInputs ∨ j ∈ high.usedInputs := by
  have hnone {e : Equation} {output : Bool} (h : e.constant? = some output) :
      j ∈ e.usedInputs ↔ False := by
    rw [constant?_eq_some_iff.mp h, mem_usedInputs_constant]
  unfold select
  split
  · next hl hh => simp [plain, hnone hl, hnone hh]
  · next hl hh => simp [inverted, hnone hl, hnone hh]
  · next hl _ => simp [and, plain, hnone hl]
  · next hh _ _ => simp [and, inverted, hnone hh]
  · next hl _ => simp [or, inverted, hnone hl]
  · next hh _ _ => simp [or, plain, hnone hh]
  · simp only [or, and, plain, inverted, mem_usedInputs_binary, mem_usedInputs_input]
    grind

/-- The joined equation stays within the bound of its parts and its input. -/
theorem within_select {k : Nat} {low high : Equation} (hl : low.Within k) (hh : high.Within k) :
    (select (k + 1) low high).Within (k + 1) := by
  intro j hj
  rcases mem_usedInputs_select.mp hj with rfl | hj | hj
  · exact ⟨Nat.le_add_left 1 k, Nat.le_refl _⟩
  · exact hl.mono (Nat.le_succ k) j hj
  · exact hh.mono (Nat.le_succ k) j hj

/-- The equation of a value over `k` inputs mentions no pin above the `k`-th. -/
theorem within_ofRows (k value : Nat) : (ofRows k value).Within k := by
  fun_induction ofRows k value with
  | case1 value => exact within_constant _ _
  | case2 k => exact within_constant _ _
  | case3 k => exact within_constant _ _
  | case4 k value hzero hones low high heq ih => exact ih.mono (Nat.le_succ k)
  | case5 k value hzero hones low high hne ihl ihh => exact within_select ihl ihh

end Equation

namespace TruthTable

/-- The equation of a table has in every row the output that the table's inputs select. -/
theorem evaluate_toEquation (t : TruthTable) (row : Nat) :
    t.toEquation.evaluate row = t.bit (row % t.width.rows) :=
  Equation.evaluate_ofRows t.width.inputs_le_maxRowPin t.value_lt_two_pow row

/-- The equation of a table mentions only inputs of the table. -/
theorem within_toEquation (t : TruthTable) : t.toEquation.Within t.width.inputs :=
  Equation.within_ofRows _ _

/-- Encoding the equation of a table at any width resizes the table. -/
theorem toTable_toEquation (t : TruthTable) (w : Width) : t.toEquation.toTable w = t.resize w := by
  refine ext_bit rfl fun r _ => ?_
  rw [Equation.bit_toTable, evaluate_toEquation, bit_resize]

/-- Decoding a table and encoding its equation at a count of inputs is resizing the table to that
count, which is refused only if it is no width. Row `r` of the result is the row of the table that
agrees with `r` on the table's inputs, so a wider result repeats the rows and a narrower one keeps
the low ones, and at its own width the table comes back. -/
theorem toTableAt_toEquation (t : TruthTable) :
    (∀ count, t.toEquation.toTableAt count = t.resizeAt count) ∧
      (∀ w : Width, t.resizeAt w.inputs = .ok (t.resize w)) ∧
      (∀ (w : Width) (r : Nat),
        (t.resize w).bit r = (decide (r < w.rows) && t.bit (r % t.width.rows))) ∧
      t.toEquation.toTableAt t.width.inputs = .ok t := by
  have hpins : t.toEquation.Within maxInputs := t.within_toEquation.mono t.width.le_max
  have hat : ∀ count, t.toEquation.toTableAt count = t.resizeAt count := by
    intro count
    rw [hpins.toTableAt, resizeAt]
    congr 1
    exact funext t.toTable_toEquation
  have hok : ∀ w : Width, t.resizeAt w.inputs = .ok (t.resize w) := by
    intro w
    rw [resizeAt, Width.ofNat_inputs]
    rfl
  refine ⟨hat, hok, t.bit_resize, ?_⟩
  rw [hat, hok, resize_self]

end TruthTable

end LutLogic
