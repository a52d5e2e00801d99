import LutLogic.Proofs.Decomposition.Inputs

/-!
# Tables and equations at another width

A table that is made wider repeats its rows, and one that is made narrower keeps the low ones, those
in which the removed inputs are 0. A width on the way therefore leaves no trace unless it is below
both the width before and the width after: only then are rows lost that are still asked for
(`resize_resize`).

On the side of equations, resizing the table of an equation is encoding the equation at the other
width, as long as it mentions no pin above its own (`Within.resize_toTable`). With the normal form
of a table this says what resizing does to the inputs that matter: a wider table is decoded to the
same equation, and a narrower one depends on nothing new. It also says for each table when a width
on the way loses nothing of it: when the inputs that matter in the end are inputs of that width
(`resize_resize_eq_iff`).
-/

namespace LutLogic

/-- A wider table has at least as many rows. -/
theorem Width.rows_le_rows {v w : Width} (h : v.inputs ≤ w.inputs) : v.rows ≤ w.rows :=
  Nat.pow_le_pow_right (by decide) h

/-- The rows of a wider table repeat those of a narrower one. -/
theorem Width.rows_dvd_rows {v w : Width} (h : v.inputs ≤ w.inputs) : v.rows ∣ w.rows :=
  Nat.pow_dvd_pow 2 h

namespace TruthTable

/-- In its own rows a resized table has the output that the inputs of the table select. -/
theorem bit_resize_of_lt {t : TruthTable} {w : Width} {r : Nat} (h : r < w.rows) :
    (t.resize w).bit r = t.bit (r % t.width.rows) := by
  rw [bit_resize, decide_eq_true h, Bool.true_and]

/-- A width on the way leaves no trace, unless it is below both the width of the table and the width
that is asked for in the end. -/
theorem resize_resize (t : TruthTable) {v w : Width} (h : min t.width.inputs w.inputs ≤ v.inputs) :
    (t.resize v).resize w = t.resize w := by
  refine ext_bit rfl fun r hr => ?_
  have hw : r < w.rows := hr
  have hv : r % v.rows < v.rows := Nat.mod_lt r v.rows_pos
  have hrow : r % v.rows % t.width.rows = r % t.width.rows := by
    rcases Nat.lt_or_ge v.inputs t.width.inputs with hlt | hle
    · -- The width on the way is too low for the table, but not for the rows that are asked for.
      have hwv : w.inputs ≤ v.inputs := by omega
      rw [Nat.mod_eq_of_lt (Nat.lt_of_lt_of_le hw (Width.rows_le_rows hwv))]
    · exact Nat.mod_mod_of_dvd r (Width.rows_dvd_rows hle)
  calc ((t.resize v).resize w).bit r = (t.resize v).bit (r % v.rows) := bit_resize_of_lt hw
    _ = t.bit (r % v.rows % t.width.rows) := bit_resize_of_lt hv
    _ = t.bit (r % t.width.rows) := by rw [hrow]
    _ = (t.resize w).bit r := (bit_resize_of_lt hw).symm

end TruthTable

namespace Equation

/-- The table of an equation over the pins of its width, resized, is the table of the equation at
the other width. -/
theorem Within.resize_toTable {e : Equation} {v : Width} (h : e.Within v.inputs) (w : Width) :
    (e.toTable v).resize w = e.toTable w := by
  refine TruthTable.ext_bit rfl fun r hr => ?_
  have hw : r < w.rows := hr
  have hv : r % v.rows < v.rows := Nat.mod_lt r v.rows_pos
  calc ((e.toTable v).resize w).bit r = (e.toTable v).bit (r % v.rows) :=
        TruthTable.bit_resize_of_lt hw
    _ = e.evaluate (r % v.rows) := bit_toTable_of_lt hv
    _ = e.evaluate r := h.evaluate_congr (Nat.mod_mod r v.rows)
    _ = (e.toTable w).bit r := (bit_toTable_of_lt hw).symm

end Equation

namespace TruthTable

/-- A wider table is decoded to the same equation. -/
theorem toEquation_resize_of_le (t : TruthTable) {w : Width} (h : t.width.inputs ≤ w.inputs) :
    (t.resize w).toEquation = t.toEquation := by
  have hin : t.toEquation.Within w.inputs := t.within_toEquation.mono h
  rw [← t.toTable_toEquation, (Equation.normal_toEquation t).toEquation_toTable hin]

/-- The inputs that matter to a wider table are those that matter to the table. -/
theorem requiredInputs_resize_of_le (t : TruthTable) {w : Width} (h : t.width.inputs ≤ w.inputs) :
    (t.resize w).requiredInputs = t.requiredInputs := by
  rw [← usedInputs_toEquation, t.toEquation_resize_of_le h, t.usedInputs_toEquation]

/-- An input that matters to a resized table is one of its own, and it matters to the table. -/
theorem mem_requiredInputs_of_resize {t : TruthTable} {w : Width} {i : Nat}
    (h : i ∈ (t.resize w).requiredInputs) : i ∈ t.requiredInputs ∧ 1 ≤ i ∧ i ≤ w.inputs := by
  refine ⟨?_, (mem_requiredInputs.mp h).1⟩
  -- The resized table is that of the decoded equation, which mentions only inputs that matter.
  rw [← t.toTable_toEquation] at h
  rw [← t.usedInputs_toEquation]
  exact Equation.mem_usedInputs_of_mem_requiredInputs h

/-! ## What a width on the way loses -/

/-- A width on the way leaves no trace on a table exactly if the inputs that matter to the result
are among those of this width. -/
theorem resize_resize_eq_iff {t : TruthTable} {v w : Width} :
    (t.resize v).resize w = t.resize w ↔ ∀ i ∈ (t.resize w).requiredInputs, i ≤ v.inputs := by
  constructor
  · intro h i hi
    rw [← h] at hi
    obtain ⟨hv, -⟩ := mem_requiredInputs_of_resize hi
    exact (mem_requiredInputs.mp hv).1.2
  · intro h
    rcases Nat.lt_or_ge w.inputs v.inputs with hlt | hle
    · exact t.resize_resize (by omega)
    · -- The result is decoded to an equation over the inputs of the width on the way.
      have hin : (t.resize w).toEquation.Within v.inputs := by
        intro i hi
        rw [usedInputs_toEquation] at hi
        exact ⟨(mem_requiredInputs.mp hi).1.1, h i hi⟩
      calc (t.resize v).resize w = ((t.resize w).resize v).resize w := by
            rw [t.resize_resize (v := w) (w := v) (by omega)]
        _ = ((t.resize w).toEquation.toTable v).resize w := by rw [toTable_toEquation]
        _ = (t.resize w).toEquation.toTable w := hin.resize_toTable w
        _ = (t.resize w).resize w := toTable_toEquation _ _
        _ = t.resize w := resize_self _

/-- Below the width of a table and the width that is asked for, a width on the way loses rows of
some table. -/
theorem exists_resize_resize_ne {n v w : Width} (h : v.inputs < min n.inputs w.inputs) :
    ∃ t : TruthTable, t.width = n ∧ (t.resize v).resize w ≠ t.resize w := by
  -- The first input that is lost, as a table.
  have hwithin {k : Nat} (hk : v.inputs + 1 ≤ k) : (Equation.plain (v.inputs + 1)).Within k :=
    Equation.within_input_iff.mpr ⟨Nat.le_add_left 1 _, hk⟩
  have hnormal : (Equation.plain (v.inputs + 1)).Normal := .inr (.pin _ false)
  refine ⟨(Equation.plain (v.inputs + 1)).toTable n, rfl, fun heq => ?_⟩
  have hrequired : v.inputs + 1 ∈
      (((Equation.plain (v.inputs + 1)).toTable n).resize w).requiredInputs := by
    rw [(hwithin (by omega)).resize_toTable w, ← usedInputs_toEquation,
      hnormal.toEquation_toTable (hwithin (by omega))]
    exact Equation.mem_usedInputs_input.mpr rfl
  have hle := resize_resize_eq_iff.mp heq _ hrequired
  omega

/-- A width on the way leaves no trace on any table of a width exactly if it is not below both this
width and the one that is asked for. -/
theorem forall_resize_resize_iff {n v w : Width} :
    (∀ t : TruthTable, t.width = n → (t.resize v).resize w = t.resize w) ↔
      min n.inputs w.inputs ≤ v.inputs := by
  constructor
  · intro hall
    refine Nat.le_of_not_lt fun hlt => ?_
    obtain ⟨t, ht, hne⟩ := exists_resize_resize_ne hlt
    exact hne (hall t ht)
  · rintro hle t rfl
    exact t.resize_resize hle

end TruthTable

end LutLogic
