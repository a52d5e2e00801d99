import LutLogic.Proofs.Contents.Congruence

/-!
# Reduced contents are canonical

The table of reduced contents is that of the packed equation of their table. The pins that matter to
it count from `A1` on, so packing it again moves nothing, and since the packed equation is a normal
form it is also decoded to itself: reducing a second time changes neither form.

Between a row of the table and a row of the reduced one there is a relation, that every pin that
matters has the value of the pin that it is moved to, and it goes through each row on either side
(`exists_row_packed`, `exists_row_unpacked`). Two reduced tables are therefore equal exactly if the
tables agree on all rows that meet in one row of the reduced tables, which are the rows in which the
pins that matter have the same values in their order (`toTable_packed_eq_iff`).
-/

namespace LutLogic

/-- There is a row with any values of the first `n` pins. -/
theorem exists_row {n : Nat} (hn : n ≤ maxRowPin) (f : Nat → Bool) :
    ∃ row < 2 ^ n, ∀ i, 1 ≤ i → i ≤ n → pinValue row i = f i := by
  refine ⟨Nat.ofBits fun k : Fin n => f (k + 1), Nat.ofBits_lt_two_pow _, fun i h1 hi => ?_⟩
  obtain ⟨k, rfl⟩ : ∃ k, i = k + 1 := ⟨i - 1, by omega⟩
  rw [pinValue_succ (by omega), Nat.testBit_ofBits_lt _ k (by omega)]

namespace TruthTable

open Contents

/-- Every row of a table is packed into one: its pins that matter are moved down with their
values. -/
theorem exists_row_packed (t : TruthTable) (x : Nat) :
    ∃ z < t.width.rows, ∀ j (hj : j < t.requiredInputs.length),
      pinValue x t.requiredInputs[j] = pinValue z (j + 1) := by
  have hle := t.length_requiredInputs_le
  obtain ⟨z, hz, hvalues⟩ := exists_row t.width.inputs_le_maxRowPin fun i =>
    pinValue x (t.requiredInputs.getD (i - 1) 0)
  refine ⟨z, hz, fun j hj => ?_⟩
  have hvalue := hvalues (j + 1) (Nat.le_add_left 1 j) (by omega)
  rw [hvalue, Nat.add_sub_cancel, List.getD_eq_getElem _ _ hj]

/-- Every row is what some row of a table is packed into. -/
theorem exists_row_unpacked (t : TruthTable) (z : Nat) :
    ∃ x < t.width.rows, ∀ j (hj : j < t.requiredInputs.length),
      pinValue x t.requiredInputs[j] = pinValue z (j + 1) := by
  obtain ⟨x, hx, hvalues⟩ := exists_row t.width.inputs_le_maxRowPin fun i =>
    pinValue z ((rankMap t.requiredInputs).apply i)
  refine ⟨x, hx, fun j hj => ?_⟩
  obtain ⟨⟨h1, hin⟩, -⟩ := mem_requiredInputs.mp (List.getElem_mem hj)
  rw [hvalues _ h1 hin, rankMap_apply_getElem t.pairwise_requiredInputs hj]

/-- The table of the packed equation has in a row the output of any row that is packed into it. -/
theorem bit_toTable_packed (t : TruthTable) {x z : Nat} (hx : x < t.width.rows)
    (hz : z < t.width.rows) (h : ∀ j (hj : j < t.requiredInputs.length),
      pinValue x t.requiredInputs[j] = pinValue z (j + 1)) :
    (t.packed.toTable t.width).bit z = t.bit x := by
  have hout : t.packed.evaluate z = t.bit (x % t.width.rows) := t.evaluate_packed h
  rw [Equation.bit_toTable_of_lt hz, hout, Nat.mod_eq_of_lt hx]

/-- As many inputs matter to the packed table as to the table. -/
theorem length_requiredInputs_packed (t : TruthTable) :
    (t.packed.toTable t.width).requiredInputs.length = t.requiredInputs.length := by
  rw [t.requiredInputs_toTable_packed t.length_requiredInputs_le, List.length_range']

/-- Tables of one width have the same packed table exactly if as many inputs matter to both and they
have the same output wherever these inputs, matched in their order, have the same values. -/
theorem toTable_packed_eq_iff {t u : TruthTable} (hw : t.width = u.width) :
    t.packed.toTable t.width = u.packed.toTable u.width ↔
      t.requiredInputs.length = u.requiredInputs.length ∧
        ∀ x < t.width.rows, ∀ y < u.width.rows,
          (∀ j (ht : j < t.requiredInputs.length) (hu : j < u.requiredInputs.length),
            pinValue x t.requiredInputs[j] = pinValue y u.requiredInputs[j]) →
          t.bit x = u.bit y := by
  constructor
  · intro h
    have hlength : t.requiredInputs.length = u.requiredInputs.length := by
      rw [← t.length_requiredInputs_packed, h, u.length_requiredInputs_packed]
    refine ⟨hlength, fun x hx y hy hxy => ?_⟩
    -- Both rows are packed into one.
    obtain ⟨z, hz, hxz⟩ := t.exists_row_packed x
    have hyz : ∀ j (hj : j < u.requiredInputs.length),
        pinValue y u.requiredInputs[j] = pinValue z (j + 1) := fun j hj => by
      rw [← hxy j (hlength ▸ hj) hj, hxz]
    rw [← t.bit_toTable_packed hx hz hxz, h, u.bit_toTable_packed hy (hw ▸ hz) hyz]
  · rintro ⟨hlength, hrows⟩
    refine ext_bit hw fun z hz => ?_
    -- A row of the packed table comes from a row of either table.
    obtain ⟨x, hx, hxz⟩ := t.exists_row_unpacked z
    obtain ⟨y, hy, hyz⟩ := u.exists_row_unpacked z
    have hxy := hrows x hx y hy fun j ht hu => by rw [hxz j ht, hyz j hu]
    have hzu : z < u.width.rows := hw ▸ hz
    rw [t.bit_toTable_packed hx hz hxz, hxy, u.bit_toTable_packed hy hzu hyz]

end TruthTable

namespace Contents

/-! ## Reducing twice -/

/-- Reducing keeps the number of pins that matter. -/
theorem Coherent.length_requiredInputs_reduce {c : Contents} (h : c.Coherent) :
    c.reduce.requiredInputs.length = c.requiredInputs.length := by
  rw [h.requiredInputs_reduce, List.length_range']

/-- The pins that matter to reduced contents count from `A1` on, so packing their table changes
nothing. -/
theorem Coherent.packed_table_reduce {c : Contents} (h : c.Coherent) :
    c.reduce.table.packed = c.reduce.table.toEquation := by
  have hdense : c.reduce.requiredInputs = List.range' 1 c.requiredInputs.length :=
    h.requiredInputs_reduce
  rw [← h.length_requiredInputs_reduce] at hdense
  exact TruthTable.packed_of_dense hdense

/-- Reducing a second time does not change the table. -/
theorem Coherent.table_reduce_reduce {c : Contents} (h : c.Coherent) :
    c.reduce.reduce.table = c.reduce.table := by
  rw [h.reduce.table_reduce, h.packed_table_reduce, TruthTable.toTable_toEquation,
    ← h.reduce.width_table, TruthTable.resize_self]

/-- Reducing a second time does not change the equation. -/
theorem Coherent.equation_reduce_reduce {c : Contents} (h : c.Coherent) :
    c.reduce.reduce.equation = c.reduce.equation := by
  have hlength : c.reduce.requiredInputs.length = c.requiredInputs.length :=
    h.length_requiredInputs_reduce
  by_cases hall : c.requiredInputs.length = c.width.inputs
  · -- Every pin matters, before and after: the contents are kept both times.
    have hall' : c.reduce.requiredInputs.length = c.reduce.width.inputs := by
      rw [hlength, width_reduce, hall]
    rw [reduce_of_all hall', c.reduce.forms_rememberTable.1]
  · have hall' : c.reduce.requiredInputs.length ≠ c.reduce.width.inputs := by
      rw [hlength, width_reduce]
      exact hall
    have hfirst : c.reduce.equation = c.table.packed := equation_reduce_of_ne hall
    have hsecond : c.reduce.reduce.equation = c.reduce.table.packed := equation_reduce_of_ne hall'
    -- The packed equation is a normal form, so its table is decoded to it.
    have hdecoded : (c.table.packed.toTable c.width).toEquation = c.table.packed :=
      c.table.toEquation_toTable_packed h.length_requiredInputs_le
    rw [hsecond, h.packed_table_reduce, h.table_reduce, hdecoded, hfirst]

/-- However contents were built and whatever was done with them, reducing them a second time changes
neither the equation nor the table. Contents of one width are reduced to equal contents exactly if
the same number of pins matters to both and, with these pins matched in their order, the outputs are
the same: wherever matched pins have the same values, so have the outputs. -/
theorem reduce_canonical {c : Contents} (hc : c.Reachable) :
    (c.reduce.reduce.equation = c.reduce.equation ∧ c.reduce.reduce.table = c.reduce.table) ∧
      ∀ d : Contents, d.Reachable → c.width = d.width →
        (c.reduce.sameFunction d.reduce = true ↔
          c.requiredInputs.length = d.requiredInputs.length ∧
            ∀ x < 2 ^ c.width.inputs, ∀ y < 2 ^ d.width.inputs,
              (∀ j (hj : j < c.requiredInputs.length) (hj' : j < d.requiredInputs.length),
                pinValue x c.requiredInputs[j] = pinValue y d.requiredInputs[j]) →
              c.table.bit x = d.table.bit y) := by
  have hcohc := hc.coherent
  refine ⟨⟨hcohc.equation_reduce_reduce, hcohc.table_reduce_reduce⟩, fun d hd hw => ?_⟩
  have hcohd := hd.coherent
  have htw : c.table.width = d.table.width := by rw [hcohc.width_table, hcohd.width_table, hw]
  have hrowsc : 2 ^ c.width.inputs = c.table.width.rows := by
    rw [hcohc.width_table, Width.rows_eq]
  have hrowsd : 2 ^ d.width.inputs = d.table.width.rows := by
    rw [hcohd.width_table, Width.rows_eq]
  rw [sameFunction_iff, hcohc.table_reduce, hcohd.table_reduce, hrowsc, hrowsd,
    ← hcohc.width_table, ← hcohd.width_table]
  exact TruthTable.toTable_packed_eq_iff htw

/-- `A2*~A3` and `A1*~A2` on three pins are reduced to equal contents, and `~A2*A3`, in which the
pins are the other way round, to different ones. -/
theorem reduce_canonical_moved :
    ∃ c d e, ofEquationAt (.and (.plain 2) (.inverted 3)) 3 = .ok c ∧
      ofEquationAt (.and (.plain 1) (.inverted 2)) 3 = .ok d ∧
      ofEquationAt (.and (.inverted 2) (.plain 3)) 3 = .ok e ∧
      c.reduce.reduce.equation = c.reduce.equation ∧ c.reduce.sameFunction d.reduce = true ∧
      c.reduce.sameFunction e.reduce ≠ true := by
  have hreachable {e : Equation} {x : Contents} (h : ofEquationAt e 3 = .ok x) : x.Reachable :=
    .built (.equation h)
  have hc := hreachable (e := .and (.plain 2) (.inverted 3)) rfl
  have hd := hreachable (e := .and (.plain 1) (.inverted 2)) rfl
  have he := hreachable (e := .and (.inverted 2) (.plain 3)) rfl
  obtain ⟨⟨htwice, -⟩, hiff⟩ := reduce_canonical hc
  have hsame := (hiff _ hd rfl).mpr ⟨by decide, by decide⟩
  refine ⟨_, _, _, rfl, rfl, rfl, htwice, hsame, fun hsame' => ?_⟩
  have hrows := ((hiff _ he rfl).mp hsame').2 2 (by decide) 2 (by decide) (by decide)
  exact absurd hrows (by decide)

end Contents

end LutLogic
