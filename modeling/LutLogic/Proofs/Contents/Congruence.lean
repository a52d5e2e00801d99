import LutLogic.Proofs.Contents.Reduction

/-!
# Contents of one function stay of one function

Contents are compared by their tables, whatever form they are held in. `changedTable` says what each
change makes of a table, and `Coherent.map_table_change?` that this is all that it does to the
function of contents, with the same refusals: neither the form that was written nor its pins above
the width nor what is remembered has a part in it, also where a change keeps the form as it is.

So the tables of contents run beside the contents. A change does the same to contents of one table
(`change_of_table_eq`), and so do whole runs, which may ask different questions in between
(`run_of_table_eq`): equality of contents is a congruence.
-/

namespace LutLogic.Contents

/-- The table that a change makes of a table, or why it is refused. -/
def changedTable (t : TruthTable) : Change → Except LutError TruthTable
  | .equation e => e.checked.map fun d => d.toTable t.width
  | .table u => .ok (u.resize t.width)
  | .width count => t.resizeAt count
  | .reduce => .ok (t.packed.toTable t.width)
  | .constant output => .ok ((Equation.constant output).toTable t.width)

/-- Changing the width resizes the table, also where the width stays as it is. -/
theorem Coherent.map_table_setWidth {c : Contents} (h : c.Coherent) (count : Nat) :
    (c.setWidth count).map table = c.table.resizeAt count := by
  rw [setWidth_eq, TruthTable.resizeAt]
  cases Width.ofNat count with
  | error refusal => rfl
  | ok w =>
    have hkept : w = c.width → c.table = c.table.resize w := by
      rintro rfl
      rw [← h.width_table, TruthTable.resize_self]
    refine congrArg Except.ok ?_
    dsimp only
    split
    · next hsame => exact hkept hsame
    · rfl

/-- A change makes of the table of contents what it makes of a table. -/
theorem Coherent.map_table_change? {c : Contents} (h : c.Coherent) (r : Change) :
    (c.change? r).map table = changedTable c.table r := by
  have hw := h.width_table
  cases r with
  | equation e =>
    rw [Contents.change?, changedTable, hw]
    cases e.checked <;> rfl
  | table t =>
    rw [changedTable, hw]
    rfl
  | width count => exact h.map_table_setWidth count
  | reduce =>
    rw [changedTable, hw, ← h.table_reduce]
    rfl
  | constant output =>
    rw [changedTable, hw]
    rfl

/-- A change is reported alike for contents of one table, and leaves them with one table. -/
theorem change_of_table_eq {c d : Contents} (hc : c.Coherent) (hd : d.Coherent)
    (h : c.table = d.table) (r : Change) :
    (c.change r).1 = (d.change r).1 ∧ (c.change r).2.table = (d.change r).2.table := by
  have hsame : (c.change? r).map table = (d.change? r).map table := by
    rw [hc.map_table_change?, hd.map_table_change?, h]
  exact change_of_map_eq hsame h

/-- The same changes, one after the other, are reported alike for contents of one table and leave
them with one table. -/
theorem run_of_table_eq {c d : Contents} (hc : c.Coherent) (hd : d.Coherent)
    (h : c.table = d.table) {steps : List Step} (hsteps : ∀ s ∈ steps, s.isChange = true) :
    (c.run steps).1 = (d.run steps).1 ∧ (c.run steps).2.table = (d.run steps).2.table := by
  induction steps generalizing c d with
  | nil => exact ⟨rfl, h⟩
  | cons s rest ih =>
    obtain ⟨hs, hrest⟩ := List.forall_mem_cons.mp hsteps
    cases s with
    | change r =>
      obtain ⟨hrefusal, htable⟩ := change_of_table_eq hc hd h r
      have hfirst : (c.step (.change r)).1 = (d.step (.change r)).1 :=
        congrArg StepOutcome.changed hrefusal
      obtain ⟨houtcomes, hlast⟩ := ih (hc.step (.change r)) (hd.step (.change r)) htable hrest
      rw [run_cons, run_cons, hfirst, houtcomes]
      exact ⟨rfl, hlast⟩
    | query q => exact nomatch hs

/-- Two runs that make the same changes, whatever they ask in between, report these alike for
contents of one table and leave them with one table. -/
theorem run_of_same_changes {c d : Contents} (hc : c.Coherent) (hd : d.Coherent)
    (h : c.table = d.table) {steps steps' : List Step}
    (hsteps : steps.filter Step.isChange = steps'.filter Step.isChange) :
    (c.run steps).1.filter StepOutcome.isChange = (d.run steps').1.filter StepOutcome.isChange ∧
      (c.run steps).2.table = (d.run steps').2.table := by
  have hchanges : ∀ s ∈ steps.filter Step.isChange, s.isChange = true := fun s hs =>
    (List.mem_filter.mp hs).2
  obtain ⟨houtcomes, htable⟩ := run_of_table_eq hc hd h hchanges
  -- Either run may be compared with the run of its changes alone.
  obtain ⟨hasked, hforget⟩ := run_changes hc hc rfl steps
  obtain ⟨hasked', hforget'⟩ := run_changes hd hd rfl steps'
  have hlast : (c.run steps).2.table = (c.run (steps.filter Step.isChange)).2.table := by
    rw [← (hc.run steps).forms_forget.2, hforget, (hc.run _).forms_forget.2]
  have hlast' : (d.run steps').2.table = (d.run (steps'.filter Step.isChange)).2.table := by
    rw [← (hd.run steps').forms_forget.2, hforget', (hd.run _).forms_forget.2]
  rw [hasked, hasked', hlast, hlast', ← hsteps]
  exact ⟨houtcomes, htable⟩

/-- Contents have the same function exactly if they have the same table. -/
theorem sameFunction_iff {c d : Contents} : c.sameFunction d = true ↔ c.table = d.table :=
  beq_iff_eq

/-- Contents have the same table exactly if they have one width and their equations have the same
output in every row of it. -/
theorem Coherent.table_eq_iff {c d : Contents} (hc : c.Coherent) (hd : d.Coherent) :
    c.table = d.table ↔ c.width = d.width ∧
      ∀ row < 2 ^ c.width.inputs, c.equation.evaluate row = d.equation.evaluate row := by
  constructor
  · intro h
    have hw : c.width = d.width := by rw [← hc.width_table, ← hd.width_table, h]
    refine ⟨hw, fun row hrow => ?_⟩
    rw [← hc.bit_table_of_lt hrow, h, hd.bit_table_of_lt (hw ▸ hrow)]
  · rintro ⟨hw, hrows⟩
    have htw : c.table.width = d.table.width := by rw [hc.width_table, hd.width_table, hw]
    refine TruthTable.ext_bit htw fun row hrow => ?_
    rw [hc.width_table] at hrow
    rw [hc.bit_table_of_lt hrow, hrows row hrow, hd.bit_table_of_lt (hw ▸ hrow)]

/-- However two contents were built and whatever was done with them: they are equal exactly if they
have one width and their equations have the same output in every row of it. Equal contents stay
equal, with the same table and the same required pins, wherever two runs that make the same changes
are stopped and whatever is asked in between, and each change is made or refused alike, for the same
reason. -/
theorem sameFunction_congruence {c d : Contents} (hc : c.Reachable) (hd : d.Reachable) :
    (c.sameFunction d = true ↔ c.width = d.width ∧
        ∀ row < 2 ^ c.width.inputs, c.equation.evaluate row = d.equation.evaluate row) ∧
      (c.sameFunction d = true → ∀ steps steps' : List Step,
        steps.filter Step.isChange = steps'.filter Step.isChange →
        ∀ outcomes c' outcomes' d', c.run steps = (outcomes, c') → d.run steps' = (outcomes', d') →
          outcomes.filter StepOutcome.isChange = outcomes'.filter StepOutcome.isChange ∧
          c'.sameFunction d' = true ∧ c'.table = d'.table ∧
          c'.requiredInputs = d'.requiredInputs) := by
  have hcohc := hc.coherent
  have hcohd := hd.coherent
  refine ⟨sameFunction_iff.trans (hcohc.table_eq_iff hcohd), fun h steps steps' hsteps => ?_⟩
  rintro outcomes c' outcomes' d' hrun hrun'
  obtain ⟨houtcomes, htable⟩ :=
    run_of_same_changes hcohc hcohd (sameFunction_iff.mp h) hsteps
  rw [hrun, hrun'] at houtcomes htable
  have hrequired : c'.requiredInputs = d'.requiredInputs :=
    congrArg TruthTable.requiredInputs htable
  exact ⟨houtcomes, sameFunction_iff.mpr htable, htable, hrequired⟩

/-- `A1+A6` on one pin, where `A6` is 0, and the table of `A1` are equal and stay so when they are
widened, refuse `A9` and are reduced. -/
theorem sameFunction_congruence_wide :
    ∃ c d, ofEquationAt (.or (.plain 1) (.plain 6)) 1 = .ok c ∧ ofLiteral "0b10" 1 = .ok d ∧
      c.sameFunction d = true ∧ c.equation ≠ d.equation ∧
      (c.run [.change (.width 3), .change (.equation (.plain 9)), .change .reduce]).2.sameFunction
        (d.run [.query .text, .change (.width 3), .query .required,
          .change (.equation (.plain 9)), .change .reduce]).2 = true := by
  have hc : Reachable ⟨⟨1, by decide, by decide⟩, .equation (.or (.plain 1) (.plain 6)) none⟩ :=
    .built (.equation (show ofEquationAt (.or (.plain 1) (.plain 6)) 1 = .ok _ from rfl))
  have hd : Reachable ⟨⟨1, by decide, by decide⟩,
      .table (.ofValue 2 ⟨1, by decide, by decide⟩) none⟩ :=
    .built (.literal (show ofLiteral "0b10" 1 = .ok _ from rfl))
  obtain ⟨hiff, hruns⟩ := sameFunction_congruence hc hd
  have hsame := hiff.mpr ⟨rfl, by decide⟩
  exact ⟨_, _, rfl, rfl, hsame, by decide, (hruns hsame _ _ rfl _ _ _ _ rfl rfl).2.1⟩

end LutLogic.Contents
