import LutLogic.Proofs.Decomposition.Normal
import LutLogic.Proofs.TruthTable.Sensitivity
import Mathlib.Data.List.Sort

/-!
# The pins of a decoded equation are those that matter

An equation may mention pins that do not matter, but never the other way round
(`mem_usedInputs_of_mem_requiredInputs`). Decoding leaves out every pin that does not matter: each
pin of a decoded equation tells two outputs apart in some row. The induction for this is on the
number of inputs, with `evaluate_select_holdPin` as its step: a row for a pin of one half is a row
for the joined equation, once the last pin is held at the value that selects this half. Both
together give `usedInputs_toEquation`.
-/

namespace LutLogic

/-- Holding a pin gives it its value and leaves the other pins. -/
theorem pinValue_holdPin {i : Nat} (h1 : 1 ≤ i) (hi : i ≤ maxRowPin) (row : Nat) (v : Bool)
    (j : Nat) : pinValue (holdPin row i v) j = if j = i then v else pinValue row j := by
  rw [pinValue, pinValue, testBit_holdPin]
  by_cases hj : j = i
  · subst hj
    rw [if_pos rfl, if_pos rfl, decide_eq_true ⟨h1, hi⟩, Bool.true_and]
  · rw [if_neg hj]
    by_cases hrange : 1 ≤ j ∧ j ≤ maxRowPin
    · rw [if_neg (by omega)]
    · rw [decide_eq_false hrange, Bool.false_and, Bool.false_and]

namespace Equation

/-- Holding a pin that is not mentioned does not change the output. -/
theorem evaluate_holdPin_of_notMem {e : Equation} {i : Nat} (hi : i ∉ e.usedInputs) (h1 : 1 ≤ i)
    (h32 : i ≤ maxRowPin) (row : Nat) (v : Bool) :
    e.evaluate (holdPin row i v) = e.evaluate row := by
  refine evaluate_congr fun j hj => ?_
  have hne : j ≠ i := by
    rintro rfl
    exact hi hj
  rw [pinValue_holdPin h1 h32, if_neg hne]

/-- Every pin that matters to the table of an equation is mentioned in it. -/
theorem mem_usedInputs_of_mem_requiredInputs {e : Equation} {w : Width} {i : Nat}
    (h : i ∈ (e.toTable w).requiredInputs) : i ∈ e.usedInputs := by
  obtain ⟨⟨h1, hw⟩, r, hr, hdiff⟩ := TruthTable.mem_requiredInputs.mp h
  have h32 : i ≤ maxRowPin := Nat.le_trans hw w.inputs_le_maxRowPin
  have hbit (v : Bool) : (e.toTable w).bit (holdPin r i v) = e.evaluate (holdPin r i v) :=
    bit_toTable_of_lt (holdPin_lt hr h1 hw v)
  refine Decidable.byContradiction fun hi => hdiff ?_
  rw [hbit, hbit, evaluate_holdPin_of_notMem hi h1 h32, evaluate_holdPin_of_notMem hi h1 h32]

/-- A joined equation with its pin held at a value is the part of that value, also where a lower pin
is held. -/
theorem evaluate_select_holdPin {k i : Nat} {low high : Equation} (hk : k + 1 ≤ maxRowPin)
    (h1 : 1 ≤ i) (hik : i ≤ k) (hl : low.Within k) (hh : high.Within k) (row : Nat) (b v : Bool) :
    (select (k + 1) low high).evaluate (holdPin (holdPin row (k + 1) b) i v) =
      if b then high.evaluate (holdPin row i v) else low.evaluate (holdPin row i v) := by
  have hpin : pinValue (holdPin (holdPin row (k + 1) b) i v) (k + 1) = b := by
    rw [pinValue_holdPin h1 (by omega), if_neg (by omega), pinValue_holdPin (by omega) hk,
      if_pos rfl]
  have hmod : holdPin (holdPin row (k + 1) b) i v % 2 ^ k = holdPin row i v % 2 ^ k := by
    rw [holdPin_mod h1 hik, holdPin_mod_of_lt (Nat.lt_succ_self k), ← holdPin_mod h1 hik]
  rw [evaluate_select, hpin, hl.evaluate_congr hmod, hh.evaluate_congr hmod]

/-- Every pin of a decoded equation matters in some row. -/
theorem exists_row_of_mem_usedInputs_ofRows {k value i : Nat} (hk : k ≤ maxRowPin)
    (hi : i ∈ (ofRows k value).usedInputs) :
    ∃ row, (ofRows k value).evaluate (holdPin row i false) ≠
      (ofRows k value).evaluate (holdPin row i true) := by
  induction k generalizing value with
  | zero =>
    have hnone := within_ofRows 0 value i hi
    omega
  | succ k ih =>
    have hk' : k ≤ maxRowPin := by omega
    have hinl := within_ofRows k (value &&& rowMask k)
    have hinh := within_ofRows k (value >>> 2 ^ k &&& rowMask k)
    rw [ofRows_succ] at hi ⊢
    split at hi
    · next hsame =>
      rw [if_pos hsame]
      exact ih hk' hi
    · next hdiff =>
      rw [if_neg hdiff]
      rcases mem_usedInputs_select.mp hi with rfl | hlow | hhigh
      · -- The last pin tells the halves apart in a row in which they differ.
        obtain ⟨r, hr⟩ := Nat.exists_testBit_ne_of_ne hdiff
        have hlt : r < 2 ^ k := by
          refine Nat.lt_of_not_le fun hle => hr ?_
          rw [testBit_and_rowMask, testBit_and_rowMask, decide_eq_false (Nat.not_lt.mpr hle),
            Bool.false_and, Bool.false_and]
        have hmod (v : Bool) : holdPin r (k + 1) v % 2 ^ k = r := by
          rw [holdPin_mod_of_lt (Nat.lt_succ_self k), Nat.mod_eq_of_lt hlt]
        have hpin (v : Bool) : pinValue (holdPin r (k + 1) v) (k + 1) = v := by
          rw [pinValue_holdPin (by omega) hk, if_pos rfl]
        refine ⟨r, ?_⟩
        rw [evaluate_select, evaluate_select, hpin, hpin, if_neg Bool.false_ne_true, if_pos rfl,
          evaluate_ofRows hk' (and_rowMask_lt _ k), evaluate_ofRows hk' (and_rowMask_lt _ k), hmod,
          hmod]
        exact hr
      · obtain ⟨h1, hik⟩ := hinl i hlow
        obtain ⟨row, hrow⟩ := ih hk' hlow
        refine ⟨holdPin row (k + 1) false, ?_⟩
        rw [evaluate_select_holdPin hk h1 hik hinl hinh,
          evaluate_select_holdPin hk h1 hik hinl hinh]
        exact hrow
      · obtain ⟨h1, hik⟩ := hinh i hhigh
        obtain ⟨row, hrow⟩ := ih hk' hhigh
        refine ⟨holdPin row (k + 1) true, ?_⟩
        rw [evaluate_select_holdPin hk h1 hik hinl hinh,
          evaluate_select_holdPin hk h1 hik hinl hinh]
        exact hrow

end Equation

namespace TruthTable

/-- The pins of the equation of a table are those that matter to the table. -/
theorem mem_usedInputs_toEquation {t : TruthTable} {i : Nat} :
    i ∈ t.toEquation.usedInputs ↔ i ∈ t.requiredInputs := by
  constructor
  · intro hi
    obtain ⟨h1, hw⟩ := t.within_toEquation i hi
    obtain ⟨row, hrow⟩ :=
      Equation.exists_row_of_mem_usedInputs_ofRows t.width.inputs_le_maxRowPin hi
    have hbit (v : Bool) : t.bit (holdPin (row % t.width.rows) i v) =
        t.toEquation.evaluate (holdPin row i v) := by
      rw [evaluate_toEquation, Width.rows_eq, holdPin_mod h1 hw]
    refine mem_requiredInputs.mpr ⟨⟨h1, hw⟩, row % t.width.rows, Nat.mod_lt _ t.width.rows_pos, ?_⟩
    rw [hbit, hbit]
    exact hrow
  · intro hi
    refine Equation.mem_usedInputs_of_mem_requiredInputs (w := t.width) ?_
    rwa [toTable_toEquation, resize_self]

/-- The equation of a table lists the pins that matter to the table. -/
theorem usedInputs_toEquation (t : TruthTable) : t.toEquation.usedInputs = t.requiredInputs :=
  t.toEquation.pairwise_usedInputs.eq_of_mem_iff t.pairwise_requiredInputs
    fun _ => mem_usedInputs_toEquation

end TruthTable

end LutLogic
