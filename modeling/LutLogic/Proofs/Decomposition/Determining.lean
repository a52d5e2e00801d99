import LutLogic.Proofs.Decomposition.Inputs
import Mathlib.Order.Bounds.Defs

/-!
# The inputs that determine the output

A set of inputs determines the output of a table if rows that agree on the set have the same output.
`isLeast_requiredInputs` says that the required inputs are the least such set. That a required input
is in every such set is seen from two rows that differ in this input alone. The other half is about
rows that may differ in many inputs at once, while each input is required or not by rows that differ
in one: here the decoded equation helps, which mentions only required inputs and has the output of
the table in every row.
-/

namespace LutLogic

namespace TruthTable

/-! ## Changing one input -/

/-- Holding an input at its two values gives a row and the row with this input changed, in one order
or the other. -/
theorem bit_holdPin_ne_iff (t : TruthTable) (r i : Nat) :
    t.bit (holdPin r i false) ≠ t.bit (holdPin r i true) ↔
      t.bit r ≠ t.bit (r ^^^ 2 ^ (i - 1)) := by
  unfold holdPin
  cases r.testBit (i - 1) with
  | false => rw [if_pos rfl, if_neg Bool.false_ne_true]
  | true => rw [if_neg Bool.false_ne_true.symm, if_pos rfl, ne_comm]

/-- The required inputs are those that change the output of some row when they alone are changed. -/
theorem mem_requiredInputs_iff_xor {t : TruthTable} {i : Nat} :
    i ∈ t.requiredInputs ↔ (1 ≤ i ∧ i ≤ t.width.inputs) ∧
      ∃ r < t.width.rows, t.bit r ≠ t.bit (r ^^^ 2 ^ (i - 1)) := by
  rw [mem_requiredInputs]
  simp only [bit_holdPin_ne_iff]

/-- Decoding names exactly the inputs that matter: the equation of a table mentions the required
inputs, and these are the inputs of the table for which some row has another output than the row
with this input changed. -/
theorem usedInputs_toEquation_iff (t : TruthTable) :
    t.toEquation.usedInputs = t.requiredInputs ∧
      ∀ i, i ∈ t.toEquation.usedInputs ↔ (1 ≤ i ∧ i ≤ t.width.inputs) ∧
        ∃ r < 2 ^ t.width.inputs, t.bit r ≠ t.bit (r ^^^ 2 ^ (i - 1)) := by
  refine ⟨t.usedInputs_toEquation, fun i => ?_⟩
  rw [t.usedInputs_toEquation, mem_requiredInputs_iff_xor, Width.rows_eq]

/-! ## Determining the output -/

/-- A set of inputs determines the output of a table: rows that agree on it have the same output. -/
def DeterminedBy (t : TruthTable) (pins : Set Nat) : Prop :=
  ∀ x < t.width.rows, ∀ y < t.width.rows,
    (∀ i ∈ pins, pinValue x i = pinValue y i) → t.bit x = t.bit y

/-- In its own rows a table has the output of its equation. -/
theorem evaluate_toEquation_of_lt {t : TruthTable} {r : Nat} (h : r < t.width.rows) :
    t.toEquation.evaluate r = t.bit r := by
  rw [evaluate_toEquation, Nat.mod_eq_of_lt h]

/-- The required inputs determine the output. -/
theorem determinedBy_requiredInputs (t : TruthTable) :
    t.DeterminedBy {i | i ∈ t.requiredInputs} := by
  intro x hx y hy hagree
  rw [← evaluate_toEquation_of_lt hx, ← evaluate_toEquation_of_lt hy]
  refine Equation.evaluate_congr fun i hi => hagree i ?_
  exact mem_usedInputs_toEquation.mp hi

/-- A set that determines the output has every required input. -/
theorem DeterminedBy.mem_of_mem_requiredInputs {t : TruthTable} {pins : Set Nat}
    (h : t.DeterminedBy pins) {i : Nat} (hi : i ∈ t.requiredInputs) : i ∈ pins := by
  obtain ⟨⟨h1, hn⟩, r, hr, hdiff⟩ := mem_requiredInputs.mp hi
  have h32 : i ≤ maxRowPin := Nat.le_trans hn t.width.inputs_le_maxRowPin
  -- The two rows in which the input is held differ in no other input.
  refine Classical.byContradiction fun hout => hdiff ?_
  refine h _ (holdPin_lt hr h1 hn false) _ (holdPin_lt hr h1 hn true) fun j hj => ?_
  have hne : j ≠ i := by
    rintro rfl
    exact hout hj
  rw [pinValue_holdPin h1 h32, pinValue_holdPin h1 h32, if_neg hne, if_neg hne]

/-- The output is constant exactly if no input is needed to determine it. -/
theorem isSome_constant?_iff {t : TruthTable} :
    t.constant?.isSome = true ↔ t.DeterminedBy ∅ := by
  rw [Option.isSome_iff_exists]
  constructor
  · rintro ⟨output, h⟩ x hx y hy _
    have hbits := constant?_eq_some_iff.mp h
    rw [hbits x hx, hbits y hy]
  · intro h
    refine ⟨t.bit 0, constant?_eq_some_iff.mpr fun r hr => ?_⟩
    exact h r hr 0 t.width.rows_pos nofun

/-- The required inputs are the least set of inputs that determines the output: rows that agree on
all of them have the same output, whatever else they differ in, and every set of inputs of which
this is true has all of them. None is required exactly if the output is constant. -/
theorem isLeast_requiredInputs (t : TruthTable) :
    IsLeast {pins : Set Nat | t.DeterminedBy pins} {i | i ∈ t.requiredInputs} ∧
      (t.requiredInputs = [] ↔ t.constant?.isSome = true) := by
  refine ⟨⟨t.determinedBy_requiredInputs, fun pins h i hi => h.mem_of_mem_requiredInputs hi⟩, ?_⟩
  rw [isSome_constant?_iff]
  constructor
  · intro hnil
    have hdetermined := t.determinedBy_requiredInputs
    rw [hnil] at hdetermined
    exact fun x hx y hy _ => hdetermined x hx y hy nofun
  · intro h
    exact List.eq_nil_iff_forall_not_mem.mpr fun i hi => h.mem_of_mem_requiredInputs hi

end TruthTable

end LutLogic
