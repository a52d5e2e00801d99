import LutLogic.Proofs.Contents.Coherence
import LutLogic.Proofs.Decomposition.Inputs

/-!
# Reducing keeps the function and moves its pins down

`rankMap` moves the pins of an ascending list to `A1`, `A2` and so on, and keeps their order.
`TruthTable.packed` is the equation of a table with its pins moved in this way. It is a normal form
again, so the pins that it mentions are those that matter to its table, at every width that has room
for them.

`Coherent.table_reduce` says that the table of reduced contents is always that of the packed
equation, whether the contents were rewritten or, because every pin matters, kept as they are. What
reducing does to the function and to the pins that matter follows for both at once. It does not
follow for the pins that the equation mentions: contents that are kept keep their equation, with
every pin that it mentions above the width.
-/

namespace LutLogic

/-! ## Ranks -/

/-- In a list without repetition that is numbered from `s` on, every pin is found with its
number. -/
theorem lookup_zip_range' {pins : List Nat} (h : pins.Pairwise (· < ·)) (s : Nat) {j : Nat}
    (hj : j < pins.length) :
    (pins.zip (List.range' s pins.length)).lookup pins[j] = some (s + j) := by
  induction pins generalizing s j with
  | nil => cases hj
  | cons p ps ih =>
    obtain ⟨hp, hps⟩ := List.pairwise_cons.mp h
    rw [List.length_cons, List.range'_succ, List.zip_cons_cons]
    cases j with
    | zero => exact List.lookup_cons_self
    | succ j =>
      have hj' : j < ps.length := Nat.lt_of_succ_lt_succ hj
      have hne : (ps[j] == p) = false :=
        beq_eq_false_iff_ne.mpr (Nat.ne_of_gt (hp _ (List.getElem_mem hj')))
      rw [List.getElem_cons_succ, List.lookup_cons, hne]
      dsimp only
      rw [ih hps (s + 1) hj', Nat.add_right_comm, Nat.add_assoc]

namespace Contents

/-- The rank of a pin of an ascending list is its place, counted from 1. -/
theorem rankMap_apply_getElem {pins : List Nat} (h : pins.Pairwise (· < ·)) {j : Nat}
    (hj : j < pins.length) : (rankMap pins).apply pins[j] = j + 1 := by
  rw [PinMap.apply, rankMap, lookup_zip_range' h 1 hj, Option.getD_some, Nat.add_comm]

/-- The ranks of an ascending list count from 1. -/
theorem map_rankMap {pins : List Nat} (h : pins.Pairwise (· < ·)) :
    pins.map (rankMap pins).apply = List.range' 1 pins.length := by
  refine List.ext_getElem (by rw [List.length_map, List.length_range']) fun j h₁ h₂ => ?_
  rw [List.length_map] at h₁
  rw [List.getElem_map, rankMap_apply_getElem h h₁, List.getElem_range', Nat.one_mul, Nat.add_comm]

/-- Ranks move no pin of a list that counts from 1 already. -/
theorem rankMap_apply_of_dense {pins : List Nat} (h : pins = List.range' 1 pins.length) {i : Nat}
    (hi : i ∈ pins) : (rankMap pins).apply i = i := by
  have hpairwise : pins.Pairwise (· < ·) := by
    rw [h]
    exact List.pairwise_lt_range' 1
  have hranks : pins.map (rankMap pins).apply = pins.map id := by
    rw [map_rankMap hpairwise, List.map_id, ← h]
  exact List.map_inj_left.mp hranks i hi

/-- Ranks keep the order of the pins. -/
theorem strictMonoOn_rankMap {pins : List Nat} (h : pins.Pairwise (· < ·)) :
    StrictMonoOn (rankMap pins).apply {i | i ∈ pins} := by
  intro i hi j hj hij
  obtain ⟨a, ha, rfl⟩ := List.getElem_of_mem hi
  obtain ⟨b, hb, rfl⟩ := List.getElem_of_mem hj
  rw [rankMap_apply_getElem h ha, rankMap_apply_getElem h hb]
  -- The other way round the list would descend.
  refine Nat.succ_lt_succ (Nat.lt_of_not_le fun hba => ?_)
  rcases Nat.eq_or_lt_of_le hba with rfl | hba
  · exact Nat.lt_irrefl _ hij
  · exact Nat.lt_asymm hij (List.pairwise_iff_getElem.mp h b a hb ha hba)

end Contents

namespace Equation

/-- A renumbering that keeps the order of the pins moves the list of them. -/
theorem usedInputs_renumber {e : Equation} {f : Nat → Nat}
    (hf : StrictMonoOn f {i | i ∈ e.usedInputs}) :
    (e.renumber f).usedInputs = e.usedInputs.map f := by
  refine (pairwise_usedInputs _).eq_of_mem_iff ?_ fun j => ?_
  · rw [List.pairwise_map]
    exact e.pairwise_usedInputs.imp_of_mem fun hi hj hij => hf hi hj hij
  · rw [mem_usedInputs_renumber, List.mem_map]

end Equation

/-! ## Packed equations -/

namespace TruthTable

open Contents

/-- The equation of a table, with the pins that matter moved down to `A1`, `A2` and so on. -/
def packed (t : TruthTable) : Equation :=
  t.toEquation.renumber (rankMap t.requiredInputs).apply

/-- Packing moves the pins of the equation in their order. -/
theorem strictMonoOn_rankMap_toEquation (t : TruthTable) :
    StrictMonoOn (rankMap t.requiredInputs).apply {i | i ∈ t.toEquation.usedInputs} := by
  rw [t.usedInputs_toEquation]
  exact strictMonoOn_rankMap t.pairwise_requiredInputs

/-- A packed equation is a normal form. -/
theorem normal_packed (t : TruthTable) : t.packed.Normal :=
  (Equation.normal_toEquation t).renumber t.strictMonoOn_rankMap_toEquation

/-- A packed equation mentions as many pins as matter, from `A1` on. -/
theorem usedInputs_packed (t : TruthTable) :
    t.packed.usedInputs = List.range' 1 t.requiredInputs.length := by
  rw [packed, Equation.usedInputs_renumber t.strictMonoOn_rankMap_toEquation,
    t.usedInputs_toEquation, map_rankMap t.pairwise_requiredInputs]

/-- A packed equation is over the pins of every width with room for the pins that matter. -/
theorem within_packed (t : TruthTable) {w : Width} (hw : t.requiredInputs.length ≤ w.inputs) :
    t.packed.Within w.inputs := by
  intro i hi
  rw [t.usedInputs_packed, List.mem_range'_1] at hi
  omega

/-- At a width with room for the pins that matter, a packed equation is decoded from its own
table. -/
theorem toEquation_toTable_packed (t : TruthTable) {w : Width}
    (hw : t.requiredInputs.length ≤ w.inputs) : (t.packed.toTable w).toEquation = t.packed :=
  t.normal_packed.toEquation_toTable (t.within_packed hw)

/-- At a width with room for them, the pins that matter to a packed equation are those that it
mentions. -/
theorem requiredInputs_toTable_packed (t : TruthTable) {w : Width}
    (hw : t.requiredInputs.length ≤ w.inputs) :
    (t.packed.toTable w).requiredInputs = List.range' 1 t.requiredInputs.length := by
  rw [← usedInputs_toEquation, t.toEquation_toTable_packed hw, t.usedInputs_packed]

/-- A packed equation has the output of the table in a row in which every pin that matters has the
value of the pin that it is moved to. -/
theorem evaluate_packed (t : TruthTable) {x y : Nat}
    (h : ∀ j (hj : j < t.requiredInputs.length),
      pinValue y t.requiredInputs[j] = pinValue x (j + 1)) :
    t.packed.evaluate x = t.bit (y % t.width.rows) := by
  rw [← t.evaluate_toEquation]
  refine Equation.evaluate_renumber fun i hi => ?_
  rw [t.usedInputs_toEquation] at hi
  obtain ⟨j, hj, rfl⟩ := List.getElem_of_mem hi
  rw [rankMap_apply_getElem t.pairwise_requiredInputs hj, h j hj]

/-- Packing changes nothing if the pins that matter count from `A1` on already. -/
theorem packed_of_dense {t : TruthTable}
    (h : t.requiredInputs = List.range' 1 t.requiredInputs.length) : t.packed = t.toEquation := by
  refine Equation.renumber_eq_self_iff.mpr fun i hi => ?_
  rw [t.usedInputs_toEquation] at hi
  exact rankMap_apply_of_dense h hi

/-- If as many inputs matter as the width has, then all of them do. -/
theorem requiredInputs_of_all {t : TruthTable} (h : t.requiredInputs.length = t.width.inputs) :
    t.requiredInputs = List.range' 1 t.width.inputs := by
  have hlength : t.requiredInputs.length = (List.range' 1 t.width.inputs).length := by
    rw [h, List.length_range']
  exact List.filter_eq_self.mpr (List.length_filter_eq_length_iff.mp hlength)

/-- If every input of the width matters, the inputs that matter are those of the width. -/
theorem requiredInputs_of_forall {t : TruthTable}
    (h : ∀ i, 1 ≤ i → i ≤ t.width.inputs → i ∈ t.requiredInputs) :
    t.requiredInputs = List.range' 1 t.width.inputs := by
  refine List.filter_eq_self.mpr fun i hi => ?_
  rw [List.mem_range'_1] at hi
  exact (List.mem_filter.mp (h i hi.1 (by omega))).2

/-- Packing changes nothing if every input of the width matters. -/
theorem packed_of_all {t : TruthTable} (h : t.requiredInputs.length = t.width.inputs) :
    t.packed = t.toEquation := by
  refine packed_of_dense ?_
  rw [h]
  exact requiredInputs_of_all h

end TruthTable

/-! ## Reduced contents -/

namespace Contents

/-- Reducing keeps the width. -/
theorem width_reduce (c : Contents) : c.reduce.width = c.width := by
  by_cases hall : c.requiredInputs.length = c.width.inputs
  · rw [reduce_of_all hall]
    obtain ⟨w, source⟩ := c
    cases source <;> rfl
  · rw [reduce_of_ne hall]

/-- Remembering the table keeps both forms. -/
theorem forms_rememberTable (c : Contents) :
    c.rememberTable.equation = c.equation ∧ c.rememberTable.table = c.table := by
  obtain ⟨w, source⟩ := c
  cases source <;> exact ⟨rfl, rfl⟩

/-- The table of reduced contents is that of the packed equation of the table. -/
theorem Coherent.table_reduce {c : Contents} (h : c.Coherent) :
    c.reduce.table = c.table.packed.toTable c.width := by
  by_cases hall : c.requiredInputs.length = c.width.inputs
  · have hall' : c.table.requiredInputs.length = c.table.width.inputs := by
      rw [h.width_table]
      exact hall
    rw [reduce_of_all hall, c.forms_rememberTable.2, TruthTable.packed_of_all hall',
      TruthTable.toTable_toEquation, ← h.width_table, TruthTable.resize_self]
  · rw [reduce_of_ne hall]
    rfl

/-- If some pin of the width does not matter, the equation of reduced contents is the packed
equation of the table. -/
theorem equation_reduce_of_ne {c : Contents} (h : c.requiredInputs.length ≠ c.width.inputs) :
    c.reduce.equation = c.table.packed := by
  rw [reduce_of_ne h]
  rfl

/-- At most the pins of the width matter. -/
theorem Coherent.length_requiredInputs_le {c : Contents} (h : c.Coherent) :
    c.requiredInputs.length ≤ c.width.inputs := by
  rw [← h.width_table]
  exact c.table.length_requiredInputs_le

/-- A pin that matters is mentioned in the equation. -/
theorem Coherent.mem_usedInputs {c : Contents} (h : c.Coherent) {i : Nat}
    (hi : i ∈ c.requiredInputs) : i ∈ c.usedInputs := by
  rw [requiredInputs, ← h.toTable_equation] at hi
  exact Equation.mem_usedInputs_of_mem_requiredInputs hi

/-- After reducing, as many pins matter as before, from `A1` on. -/
theorem Coherent.requiredInputs_reduce {c : Contents} (h : c.Coherent) :
    c.reduce.requiredInputs = List.range' 1 c.requiredInputs.length := by
  rw [requiredInputs, h.table_reduce]
  exact c.table.requiredInputs_toTable_packed h.length_requiredInputs_le

/-- However contents were built and whatever was done with them, reducing keeps their number of pins
and moves the pins that matter down to `A1`, `A2` and so on, in their order: as many matter as
before, and the output in a row is the one that the contents had in every row in which each of these
pins has the value of the pin that it was moved to. -/
theorem reduce_of_reachable {c : Contents} (h : c.Reachable) :
    c.reduce.width = c.width ∧
      c.reduce.requiredInputs = List.range' 1 c.requiredInputs.length ∧
      ∀ x < 2 ^ c.width.inputs, ∀ y < 2 ^ c.width.inputs,
        (∀ j (hj : j < c.requiredInputs.length),
          pinValue y c.requiredInputs[j] = pinValue x (j + 1)) →
        c.reduce.table.bit x = c.table.bit y := by
  have hcoh := h.coherent
  refine ⟨c.width_reduce, hcoh.requiredInputs_reduce, fun x hx y hy hpins => ?_⟩
  have hrow : y % c.table.width.rows = y := by
    rw [hcoh.width_table]
    exact Nat.mod_eq_of_lt hy
  have hout : c.table.packed.evaluate x = c.table.bit (y % c.table.width.rows) :=
    c.table.evaluate_packed hpins
  have hin : decide (x < c.width.rows) = true := decide_eq_true hx
  rw [hcoh.table_reduce, Equation.bit_toTable, hout, hrow, hin, Bool.true_and]

/-- Of `A2*~A3` on three pins, the pins that matter are moved to `A1` and `A2`: the output in the
row of `A1` alone is the one that the row of `A2` alone had. -/
theorem reduce_of_reachable_moved :
    ∃ c, ofEquationAt (.and (.plain 2) (.inverted 3)) 3 = .ok c ∧ c.requiredInputs = [2, 3] ∧
      c.reduce.requiredInputs = [1, 2] ∧ c.reduce.table.bit 1 = c.table.bit 2 ∧
      c.table.bit 2 = true := by
  have hc : Reachable ⟨⟨3, by decide, by decide⟩, .equation (.and (.plain 2) (.inverted 3)) none⟩ :=
    .built (.equation (show ofEquationAt (.and (.plain 2) (.inverted 3)) 3 = .ok _ from rfl))
  obtain ⟨-, hrequired, hrows⟩ := reduce_of_reachable hc
  refine ⟨_, rfl, by decide, hrequired, hrows 1 (by decide) 2 (by decide) ?_, by decide⟩
  decide

/-- Whatever was done with contents, reducing them leaves only pins that matter in the equation
exactly if some pin of the width does not matter or the equation mentions no pin above the width. If
every pin of the width matters, then the equation stays as it is. -/
theorem usedInputs_reduce_of_reachable {c : Contents} (h : c.Reachable) :
    c.reduce.requiredInputs = List.range' 1 c.requiredInputs.length ∧
      (c.reduce.usedInputs = c.reduce.requiredInputs ↔
        c.requiredInputs.length < c.width.inputs ∨ ∀ i ∈ c.usedInputs, i ≤ c.width.inputs) ∧
      (c.requiredInputs.length = c.width.inputs → c.reduce.equation = c.equation) := by
  have hcoh := h.coherent
  have hrequired := hcoh.requiredInputs_reduce
  have hkept (hall : c.requiredInputs.length = c.width.inputs) :
      c.reduce.equation = c.equation := by
    rw [reduce_of_all hall, c.forms_rememberTable.1]
  refine ⟨hrequired, ?_, hkept⟩
  rw [hrequired]
  by_cases hall : c.requiredInputs.length = c.width.inputs
  · have hused : c.reduce.usedInputs = c.usedInputs := by
      rw [usedInputs, hkept hall, usedInputs]
    have hrange : c.requiredInputs = List.range' 1 c.width.inputs := by
      rw [requiredInputs, ← hcoh.width_table]
      exact TruthTable.requiredInputs_of_all (by rw [hcoh.width_table]; exact hall)
    rw [hused, hall]
    constructor
    · intro heq
      refine .inr fun i hi => ?_
      rw [heq, List.mem_range'_1] at hi
      omega
    · rintro (hlt | hle)
      · exact absurd hlt (Nat.lt_irrefl _)
      · refine c.equation.pairwise_usedInputs.eq_of_mem_iff (List.pairwise_lt_range' 1) fun i => ?_
        constructor
        · intro hi
          have h1 := (hcoh.within_equation i hi).1
          have hn := hle i hi
          rw [List.mem_range'_1]
          omega
        · intro hi
          rw [← hrange, requiredInputs, ← hcoh.toTable_equation] at hi
          exact Equation.mem_usedInputs_of_mem_requiredInputs hi
  · have hused : c.reduce.usedInputs = List.range' 1 c.requiredInputs.length := by
      rw [usedInputs, equation_reduce_of_ne hall]
      exact c.table.usedInputs_packed
    exact ⟨fun _ => .inl (Nat.lt_of_le_of_ne hcoh.length_requiredInputs_le hall), fun _ => hused⟩

/-- Of `A1+A6` on two pins only `A1` is left. -/
theorem usedInputs_reduce_of_reachable_wide :
    ∃ c, ofEquationAt (.or (.plain 1) (.plain 6)) 2 = .ok c ∧ c.requiredInputs = [1] ∧
      c.reduce.usedInputs = c.reduce.requiredInputs := by
  have hc : Reachable ⟨⟨2, by decide, by decide⟩, .equation (.or (.plain 1) (.plain 6)) none⟩ :=
    .built (.equation (show ofEquationAt (.or (.plain 1) (.plain 6)) 2 = .ok _ from rfl))
  obtain ⟨-, hiff, -⟩ := usedInputs_reduce_of_reachable hc
  exact ⟨_, rfl, by decide, hiff.mpr (.inl (by decide))⟩

/-- `A1+A6` on one pin stays as it is, although `A6` does not matter there. -/
theorem usedInputs_reduce_ne :
    ∃ c, ofEquationAt (.or (.plain 1) (.plain 6)) 1 = .ok c ∧ c.requiredInputs = [1] ∧
      c.reduce.requiredInputs = [1] ∧ c.reduce.usedInputs = [1, 6] :=
  ⟨_, rfl, by decide, by decide, by decide⟩

end Contents

end LutLogic
