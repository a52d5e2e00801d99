import LutLogic.Proofs.Contents.Width
import LutLogic.Proofs.Decomposition.Determining

/-!
# What the equation tells about the function

The equation of contents may mention pins that do not matter, and it may be no constant although
every row has the same output. It does not err the other way round. A pin that matters is mentioned,
for the output depends on nothing else, and a constant is the output in every row.

The other way round holds of contents whose equation is the one that their table is decoded to
(`IsDecoded`). Contents that were last written as a table are decoded, and so are reduced contents
unless every pin of the width matters and they are kept as they were written. `Settled` takes these
cases together. Where every pin matters, neither the equation nor the table is constant, so the
equation of settled contents always tells whether the output is
(`Settled.equation_eq_constant_iff`).
-/

namespace LutLogic

namespace TruthTable

/-- A table is decoded to a constant exactly if it has this output in every row. -/
theorem toEquation_eq_constant_iff {t : TruthTable} {output : Bool} :
    t.toEquation = .constant output ↔ t.constant? = some output := by
  constructor
  · intro h
    refine constant?_eq_some_iff.mpr fun r hr => ?_
    rw [← evaluate_toEquation_of_lt hr, h, Equation.evaluate_constant]
  · intro h
    have hrows := constant?_eq_some_iff.mp h
    cases output with
    | false => rw [toEquation, value_eq_zero_iff.mpr hrows, Equation.ofRows_zero]
    | true =>
      rw [toEquation, value_eq_mask_iff.mpr hrows]
      exact Equation.ofRows_rowMask _

/-- No input matters to a table that has the same output in every row. -/
theorem requiredInputs_of_constant? {t : TruthTable} {output : Bool}
    (h : t.constant? = some output) : t.requiredInputs = [] := by
  rw [← usedInputs_toEquation, toEquation_eq_constant_iff.mpr h]
  rfl

end TruthTable

namespace Contents

/-! ## Pins that matter are mentioned -/

/-- However contents were built and whatever was done with them, a pin that matters is mentioned in
the equation and is a pin of the width. For the output of any equation depends only on the pins that
it mentions: in two rows that agree on them it is the same. -/
theorem requiredInputs_subset_of_reachable {c : Contents} (h : c.Reachable) :
    (c.requiredInputs ⊆ c.usedInputs ∧ ∀ i ∈ c.requiredInputs, 1 ≤ i ∧ i ≤ c.width.inputs) ∧
      ∀ (e : Equation) (x y : Nat),
        (∀ i ∈ e.usedInputs, pinValue x i = pinValue y i) → e.evaluate x = e.evaluate y := by
  have hcoh := h.coherent
  refine ⟨⟨fun i hi => hcoh.mem_usedInputs hi, fun i hi => ?_⟩, fun e x y hagree => ?_⟩
  · rw [← hcoh.width_table]
    exact (TruthTable.mem_requiredInputs.mp hi).1
  · exact Equation.evaluate_congr hagree

/-- Of `(A6+~A6)*A5` on five pins only `A5` matters, and where it is 1, `A1` does not change the
output. -/
theorem requiredInputs_subset_of_reachable_masked :
    ∃ e c, e = Equation.and (.or (.plain 6) (.inverted 6)) (.plain 5) ∧ ofEquationAt e 5 = .ok c ∧
      c.requiredInputs = [5] ∧ c.usedInputs = [5, 6] ∧ c.requiredInputs ⊆ c.usedInputs ∧
      (∀ i ∈ e.usedInputs, pinValue 16 i = pinValue 17 i) ∧ e.evaluate 16 = e.evaluate 17 := by
  have hc : Reachable ⟨⟨5, by decide, by decide⟩,
      .equation (.and (.or (.plain 6) (.inverted 6)) (.plain 5)) none⟩ :=
    .built (.equation (show ofEquationAt (.and (.or (.plain 6) (.inverted 6)) (.plain 5)) 5 =
      .ok _ from rfl))
  obtain ⟨⟨hsubset, -⟩, hrows⟩ := requiredInputs_subset_of_reachable hc
  have hagree : ∀ i ∈ [5, 6], pinValue 16 i = pinValue 17 i := by decide
  exact ⟨_, _, rfl, rfl, by decide, rfl, hsubset, hagree, hrows _ 16 17 hagree⟩

/-! ## Contents that show the same -/

/-- Two contents have the same width, equation and table, whatever form they are held in. -/
structure ShowsAs (c d : Contents) : Prop where
  /-- The widths are the same. -/
  width_eq : c.width = d.width
  /-- The equations are the same. -/
  equation_eq : c.equation = d.equation
  /-- The tables are the same. -/
  table_eq : c.table = d.table

/-- What shows the same as contents that show the same as others shows the same as these. -/
theorem ShowsAs.trans {c d e : Contents} (h : ShowsAs c d) (h' : ShowsAs d e) : ShowsAs c e :=
  ⟨h.width_eq.trans h'.width_eq, h.equation_eq.trans h'.equation_eq, h.table_eq.trans h'.table_eq⟩

/-- If every pin of the width matters, reduced contents show the same as before. -/
theorem showsAs_reduce_of_all {c : Contents} (h : c.requiredInputs.length = c.width.inputs) :
    ShowsAs c.reduce c := by
  obtain ⟨hequation, htable⟩ := c.forms_rememberTable
  rw [← reduce_of_all h] at hequation htable
  exact ⟨c.width_reduce, hequation, htable⟩

/-- Contents show the same when a question was asked. -/
theorem Coherent.showsAs_afterQuery {c : Contents} (h : c.Coherent) (q : Query) :
    ShowsAs (c.afterQuery q) c := by
  obtain ⟨hequation, htable⟩ := (h.afterQuery q).forms_forget
  have hwidth := (c.afterQuery q).width_forget
  rw [forget_afterQuery] at hequation htable hwidth
  exact ⟨hwidth.symm.trans c.width_forget, hequation.symm.trans h.forms_forget.1,
    htable.symm.trans h.forms_forget.2⟩

/-- Contents that show the same do so after they are reduced. -/
theorem ShowsAs.reduce {c d : Contents} (h : ShowsAs c d) (hc : c.Coherent) (hd : d.Coherent) :
    ShowsAs c.reduce d.reduce := by
  have hrequired : c.requiredInputs = d.requiredInputs := by
    rw [requiredInputs, h.table_eq, requiredInputs]
  refine ⟨by rw [width_reduce, width_reduce, h.width_eq], ?_, ?_⟩
  · by_cases hall : c.requiredInputs.length = c.width.inputs
    · have hall' : d.requiredInputs.length = d.width.inputs := by
        rw [← hrequired, ← h.width_eq, hall]
      rw [(showsAs_reduce_of_all hall).equation_eq, (showsAs_reduce_of_all hall').equation_eq,
        h.equation_eq]
    · have hall' : d.requiredInputs.length ≠ d.width.inputs := by
        rw [← hrequired, ← h.width_eq]
        exact hall
      rw [equation_reduce_of_ne hall, equation_reduce_of_ne hall', h.table_eq]
  · rw [hc.table_reduce, hd.table_reduce, h.table_eq, h.width_eq]

/-- Reduced contents show the same when they are reduced again. -/
theorem Coherent.showsAs_reduce_reduce {c : Contents} (h : c.Coherent) :
    ShowsAs c.reduce.reduce c.reduce :=
  ⟨c.reduce.width_reduce, h.equation_reduce_reduce, h.table_reduce_reduce⟩

/-- The equation of the contents is the one that their table is decoded to. -/
def IsDecoded (c : Contents) : Prop := c.equation = c.table.toEquation

/-- If some pin of the width does not matter, reduced contents are decoded. -/
theorem Coherent.isDecoded_reduce_of_ne {c : Contents} (h : c.Coherent)
    (hne : c.requiredInputs.length ≠ c.width.inputs) : c.reduce.IsDecoded := by
  unfold IsDecoded
  rw [equation_reduce_of_ne hne, h.table_reduce,
    c.table.toEquation_toTable_packed h.length_requiredInputs_le]

/-- Contents that show the same as decoded ones are decoded. -/
theorem IsDecoded.of_showsAs {c d : Contents} (h : c.IsDecoded) (hd : ShowsAs d c) :
    d.IsDecoded := by
  unfold IsDecoded
  rw [hd.equation_eq, hd.table_eq]
  exact h

/-- Reducing keeps contents decoded. -/
theorem IsDecoded.reduce {c : Contents} (h : c.IsDecoded) (hc : c.Coherent) :
    c.reduce.IsDecoded := by
  by_cases hall : c.requiredInputs.length = c.width.inputs
  · exact h.of_showsAs (showsAs_reduce_of_all hall)
  · exact hc.isDecoded_reduce_of_ne hall

/-- Written as their equation alone, coherent contents show the same. -/
theorem Coherent.showsAs_equation {c : Contents} (h : c.Coherent) :
    ShowsAs ⟨c.width, .equation c.equation none⟩ c :=
  ⟨rfl, rfl, h.toTable_equation⟩

/-- Written as their table alone, decoded contents show the same. -/
theorem IsDecoded.showsAs_table {c : Contents} (h : c.IsDecoded) :
    ShowsAs ⟨c.width, .table c.table none⟩ c :=
  ⟨rfl, h.symm, rfl⟩

/-! ## Constant outputs -/

/-- The table of the contents is constant exactly if every row of the width has the output. -/
theorem Coherent.constant?_table_eq_some_iff {c : Contents} (h : c.Coherent) {output : Bool} :
    c.table.constant? = some output ↔ ∀ row < 2 ^ c.width.inputs, c.table.bit row = output := by
  rw [TruthTable.constant?_eq_some_iff, h.width_table, Width.rows_eq]

/-- If the equation is a constant, then the table has this output in every row. -/
theorem Coherent.constant?_table {c : Contents} (h : c.Coherent) {output : Bool}
    (he : c.equation = .constant output) : c.table.constant? = some output := by
  refine h.constant?_table_eq_some_iff.mpr fun row hrow => ?_
  rw [h.bit_table_of_lt hrow, he, Equation.evaluate_constant]

/-- If every pin of the width matters, then the table is not constant. -/
theorem constant?_table_of_all {c : Contents} (h : c.requiredInputs.length = c.width.inputs) :
    c.table.constant? = none := by
  have hmin : 1 ≤ c.width.inputs := c.width.min_le
  refine Option.eq_none_iff_forall_not_mem.mpr fun output hout => ?_
  rw [requiredInputs, TruthTable.requiredInputs_of_constant? hout, List.length_nil] at h
  omega

/-- Contents that were last written as a table or have just been reduced, whatever was asked since.
A change that is refused and a change to the same width write nothing. -/
inductive Settled : Contents → Prop where
  /-- Made from a table. -/
  | table {t : TruthTable} {count : Nat} {c : Contents} (h : ofTableAt t count = .ok c) : Settled c
  /-- Made from a literal. -/
  | literal {text : String} {count : Nat} {c : Contents} (h : ofLiteral text count = .ok c) :
    Settled c
  /-- Written as a table. -/
  | setTable {c : Contents} (h : c.Reachable) (t : TruthTable) : Settled (c.setTable t)
  /-- Brought to another width. -/
  | setWidth {c d : Contents} {count : Nat} (h : c.Reachable) (hd : c.setWidth count = .ok d)
    (hw : d.width ≠ c.width) : Settled d
  /-- Reduced. -/
  | reduce {c : Contents} (h : c.Reachable) : Settled c.reduce
  /-- A question further. -/
  | query {c : Contents} (h : Settled c) (q : Query) : Settled (c.afterQuery q)

/-- Settled contents are reachable. -/
theorem Settled.reachable {c : Contents} (h : c.Settled) : c.Reachable := by
  induction h with
  | table h => exact .built (.table h)
  | literal h => exact .built (.literal h)
  | setTable h t => exact h.step (.change (.table t))
  | @setWidth c d count h hd hw =>
    have hchange : c.change (.width count) = (none, d) := change_of_ok hd
    have hstep := h.step (.change (.width count))
    rwa [step, hchange] at hstep
  | reduce h => exact h.step (.change .reduce)
  | query h q ih => exact ih.step (.query q)

/-- Settled contents are decoded, or every pin of their width matters. -/
theorem Settled.isDecoded_or_all {c : Contents} (h : c.Settled) :
    c.IsDecoded ∨ c.requiredInputs.length = c.width.inputs := by
  induction h with
  | table h =>
    obtain ⟨w, -, rfl⟩ := map_eq_ok_iff.mp h
    exact .inl rfl
  | literal h =>
    obtain ⟨t, -, rfl⟩ := exists_table_of_ofLiteral h
    exact .inl rfl
  | setTable h t => exact .inl rfl
  | setWidth h hd hw => exact .inl ((h.coherent.of_setWidth hd).2.equation_eq hw)
  | @reduce c h =>
    have hcoh := h.coherent
    by_cases hall : c.requiredInputs.length = c.width.inputs
    · rw [hcoh.length_requiredInputs_reduce, width_reduce]
      exact .inr hall
    · exact .inl (hcoh.isDecoded_reduce_of_ne hall)
  | @query c h q ih =>
    have hshows := h.reachable.coherent.showsAs_afterQuery q
    rcases ih with hdecoded | hall
    · exact .inl (hdecoded.of_showsAs hshows)
    · rw [requiredInputs, hshows.table_eq, hshows.width_eq]
      exact .inr hall

/-- The equation of settled contents is a constant exactly if their table has this output in every
row. -/
theorem Settled.equation_eq_constant_iff {c : Contents} (h : c.Settled) {output : Bool} :
    c.equation = .constant output ↔ c.table.constant? = some output := by
  rcases h.isDecoded_or_all with hdecoded | hall
  · rw [hdecoded, TruthTable.toEquation_eq_constant_iff]
  · -- Neither form is constant.
    rw [constant?_table_of_all hall]
    refine ⟨fun he => ?_, nofun⟩
    rw [← h.reachable.coherent.constant?_table he, constant?_table_of_all hall]

end Contents

end LutLogic
