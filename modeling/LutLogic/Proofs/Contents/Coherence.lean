import LutLogic.Contents.Run
import LutLogic.Proofs.Decomposition.Exact
import LutLogic.Proofs.TruthTable.Sensitivity

/-!
# The two forms of contents stay coherent

Contents hold the form in which they were last written and may remember the other one. `Coherent` is
the invariant behind this: a table that was written has the width of the contents, an equation that
was written is over `A1` to `A6`, and a remembered form is the one that would be derived anew. Every
constructor establishes it (`Built.coherent`) and every step preserves it (`Coherent.step`), so it
holds of all contents that can be reached (`Reachable.coherent`).

A question can only leave a form remembered. `forget` drops that form, and coherent contents answer
every question and make every change as they do without it (`Coherent.reply_forget`,
`Coherent.change?_forget`). Two contents that are equal up to `forget` therefore stay so, and a run
may be compared with the run of its changes alone.

Changes are made in place, field by field. `run_update` says that each of them makes all of what
`change?` says or, if it is refused, nothing, and only this lemma looks at what is written when.
-/

namespace LutLogic

namespace Contents

/-- Contents as one of the constructors makes them. -/
inductive Built : Contents → Prop where
  /-- Written as an equation. -/
  | equation {e : Equation} {count : Nat} {c : Contents} (h : ofEquationAt e count = .ok c) :
    Built c
  /-- Written as the text of an equation. -/
  | equationText {text : String} {count : Nat} {c : Contents}
    (h : ofEquationText text count = .ok c) : Built c
  /-- Written as a table. -/
  | table {t : TruthTable} {count : Nat} {c : Contents} (h : ofTableAt t count = .ok c) : Built c
  /-- Written as a literal. -/
  | literal {text : String} {count : Nat} {c : Contents} (h : ofLiteral text count = .ok c) :
    Built c

/-- Contents after any changes and questions. -/
inductive Reachable : Contents → Prop where
  /-- Contents that were just made. -/
  | built {c : Contents} (h : Built c) : Reachable c
  /-- A step further. -/
  | step {c : Contents} (h : Reachable c) (s : Step) : Reachable (c.step s).2

/-- The form that was written fits the contents, and a remembered form is the one that would be
derived from it. -/
def Coherent (c : Contents) : Prop :=
  match c.source with
  | .table t known => t.width = c.width ∧ ∀ e ∈ known, e = t.toEquation
  | .equation e known => e.Within maxInputs ∧ ∀ t ∈ known, t = e.toTable c.width

/-- The same contents with nothing remembered. -/
def forget (c : Contents) : Contents :=
  match c.source with
  | .table t _ => { c with source := .table t none }
  | .equation e _ => { c with source := .equation e none }

/-! ## Changes and runs, one case at a time -/

/-- Contents that need every pin of their width are reduced already. -/
theorem reduce_of_all {c : Contents} (h : c.requiredInputs.length = c.width.inputs) :
    c.reduce = c.rememberTable := by
  rw [reduce]
  exact if_pos h

/-- Other contents are reduced by giving every pin that matters its rank. -/
theorem reduce_of_ne {c : Contents} (h : c.requiredInputs.length ≠ c.width.inputs) :
    c.reduce =
      ⟨c.width, .equation (c.table.toEquation.renumber (rankMap c.requiredInputs).apply) none⟩ := by
  rw [reduce]
  exact if_neg h

/-- An equation is written, or refused before anything is. -/
theorem run_setEquationInPlace (e : Equation) (c : Contents) :
    (setEquationInPlace e).run c =
      match e.checked with
      | .ok e => .ok () { c with source := .equation e none }
      | .error refusal => .error refusal c := by
  unfold setEquationInPlace
  cases e.checked <;> rfl

/-- A width is written together with the resized table, or refused before either is. The same width
writes nothing. -/
theorem run_setWidthInPlace (count : Nat) (c : Contents) :
    (setWidthInPlace count).run c =
      match Width.ofNat count with
      | .ok w => .ok () (if w = c.width then c else ⟨w, .table (c.table.resize w) none⟩)
      | .error refusal => .error refusal c := by
  unfold setWidthInPlace
  cases Width.ofNat count with
  | error refusal => rfl
  | ok w =>
    change EStateM.run (if w = c.width then pure () else _) c = .ok () _
    by_cases hsame : w = c.width
    · rw [if_pos hsame, if_pos hsame]
      rfl
    · rw [if_neg hsame, if_neg hsame]
      rfl

/-- Another width gives the resized table, and the same width changes nothing. -/
theorem setWidth_eq (c : Contents) (count : Nat) :
    c.setWidth count = (Width.ofNat count).map fun w =>
      if w = c.width then c else ⟨w, .table (c.table.resize w) none⟩ := by
  rw [setWidth, Update.result, run_setWidthInPlace]
  cases Width.ofNat count <;> rfl

/-- What a change makes of contents, or why it is refused. -/
def change? (c : Contents) : Change → Except LutError Contents
  | .equation e => e.checked.map fun e => { c with source := .equation e none }
  | .table t => .ok (c.setTable t)
  | .width count => c.setWidth count
  | .reduce => .ok c.reduce
  | .constant output => .ok (c.setConstant output)

/-- In place a change leaves what it makes of the contents, or, where it is refused, the contents as
they were: whatever can be wrong is judged before the first field is written. -/
theorem run_update (c : Contents) (r : Change) :
    r.update.run c =
      match c.change? r with
      | .ok d => .ok () d
      | .error refusal => .error refusal c := by
  cases r with
  | equation e =>
    rw [Change.update, run_setEquationInPlace, change?]
    cases e.checked <;> rfl
  | table t => rfl
  | width count =>
    rw [Change.update, run_setWidthInPlace, change?, setWidth_eq]
    cases Width.ofNat count <;> rfl
  | reduce => rfl
  | constant output => rfl

/-- A table of the given width is written as it is. -/
theorem ofTable_of_width {t : TruthTable} {w : Width} (h : t.width = w) :
    ofTable t w = ⟨w, .table t none⟩ := by
  rw [ofTable, ← h, TruthTable.resize_self]

/-- A change that is refused leaves the contents as they are. -/
theorem change_of_error {c : Contents} {r : Change} {refusal : LutError}
    (h : c.change? r = .error refusal) : c.change r = (some refusal, c) := by
  rw [change, run_update, h]

/-- A change that is made gives the changed contents. -/
theorem change_of_ok {c d : Contents} {r : Change} (h : c.change? r = .ok d) :
    c.change r = (none, d) := by
  rw [change, run_update, h]

/-- A change that is refused for the same reason or makes the same of a part of two contents, a part
in which they agreed, is reported alike and leaves them alike in this part. -/
theorem change_of_map_eq {α : Type} {part : Contents → α} {c d : Contents} {r : Change}
    (hsame : (c.change? r).map part = (d.change? r).map part) (h : part c = part d) :
    (c.change r).1 = (d.change r).1 ∧ part (c.change r).2 = part (d.change r).2 := by
  cases hc : c.change? r with
  | error refusal =>
    rw [hc] at hsame
    cases hd : d.change? r with
    | error refusal' =>
      rw [hd] at hsame
      have hrefusal : refusal = refusal' := Except.error.inj hsame
      rw [change_of_error hc, change_of_error hd, hrefusal]
      exact ⟨rfl, h⟩
    | ok d' =>
      rw [hd] at hsame
      exact nomatch hsame
  | ok c' =>
    rw [hc] at hsame
    cases hd : d.change? r with
    | error refusal' =>
      rw [hd] at hsame
      exact nomatch hsame
    | ok d' =>
      rw [hd] at hsame
      rw [change_of_ok hc, change_of_ok hd]
      exact ⟨rfl, Except.ok.inj hsame⟩

/-- A run makes its first step and then the others. -/
theorem run_cons (c : Contents) (s : Step) (rest : List Step) :
    c.run (s :: rest) =
      ((c.step s).1 :: ((c.step s).2.run rest).1, ((c.step s).2.run rest).2) :=
  rfl

/-! ## What coherence gives -/

/-- Both forms of coherent contents are those of what was written, whatever is remembered. -/
theorem Coherent.forms {c : Contents} (h : c.Coherent) :
    (∃ t known, c.source = .table t known ∧ t.width = c.width ∧ c.table = t ∧
        c.equation = t.toEquation) ∨
      (∃ e known, c.source = .equation e known ∧ e.Within maxInputs ∧ c.equation = e ∧
        c.table = e.toTable c.width) := by
  obtain ⟨w, source⟩ := c
  cases source with
  | table t known =>
    obtain ⟨hw, hknown⟩ := h
    refine .inl ⟨t, known, rfl, hw, rfl, ?_⟩
    cases known with
    | none => rfl
    | some e => exact hknown e rfl
  | equation e known =>
    obtain ⟨hpins, hknown⟩ := h
    refine .inr ⟨e, known, rfl, hpins, rfl, ?_⟩
    cases known with
    | none => rfl
    | some t => exact hknown t rfl

/-- The equation is over `A1` to `A6`. -/
theorem Coherent.within_equation {c : Contents} (h : c.Coherent) : c.equation.Within maxInputs := by
  obtain ⟨t, known, -, -, -, he⟩ | ⟨e, known, -, hpins, he, -⟩ := h.forms
  · rw [he]
    exact t.within_toEquation.mono t.width.le_max
  · rw [he]
    exact hpins

/-- The table has the width of the contents. -/
theorem Coherent.width_table {c : Contents} (h : c.Coherent) : c.table.width = c.width := by
  obtain ⟨t, known, -, hw, ht, -⟩ | ⟨e, known, -, -, -, ht⟩ := h.forms
  · rw [ht, hw]
  · rw [ht]
    rfl

/-- The table is the one of the equation. -/
theorem Coherent.toTable_equation {c : Contents} (h : c.Coherent) :
    c.equation.toTable c.width = c.table := by
  obtain ⟨t, known, -, hw, ht, he⟩ | ⟨e, known, -, -, he, ht⟩ := h.forms
  · rw [he, ht, ← hw, t.toTable_toEquation, t.resize_self]
  · rw [he, ht]

/-- In the rows of the width the table lists the output of the equation. -/
theorem Coherent.bit_table_of_lt {c : Contents} (h : c.Coherent) {row : Nat}
    (hrow : row < 2 ^ c.width.inputs) : c.table.bit row = c.equation.evaluate row := by
  rw [← h.toTable_equation]
  exact Equation.bit_toTable_of_lt hrow

/-! ## Coherence is kept -/

/-- Contents that were just written as an equation over `A1` to `A6` are coherent. -/
theorem coherent_equation {e : Equation} (w : Width) (h : e.Within maxInputs) :
    Coherent ⟨w, .equation e none⟩ :=
  ⟨h, by simp⟩

/-- Contents that were just written as a table of their width are coherent. -/
theorem coherent_table {t : TruthTable} {w : Width} (h : t.width = w) :
    Coherent ⟨w, .table t none⟩ :=
  ⟨h, by simp⟩

/-- Remembering the equation keeps coherence. -/
theorem Coherent.rememberEquation {c : Contents} (h : c.Coherent) :
    c.rememberEquation.Coherent := by
  have hforms := h.forms
  obtain ⟨w, source⟩ := c
  cases source with
  | table t known =>
    obtain ⟨t', known', hs, hw, ht, he⟩ | ⟨e, known', hs, -⟩ := hforms
    · refine ⟨h.1, ?_⟩
      rintro e ⟨⟩
      rw [he, ← ht]
      rfl
    · cases hs
  | equation e known => exact h

/-- Remembering the table keeps coherence. -/
theorem Coherent.rememberTable {c : Contents} (h : c.Coherent) : c.rememberTable.Coherent := by
  have htable := h.toTable_equation
  obtain ⟨w, source⟩ := c
  cases source with
  | table t known => exact h
  | equation e known =>
    refine ⟨h.1, ?_⟩
    rintro t ⟨⟩
    exact htable.symm

/-- Asking a question keeps coherence. -/
theorem Coherent.afterQuery {c : Contents} (h : c.Coherent) (q : Query) :
    (c.afterQuery q).Coherent := by
  cases q with
  | equation => exact h.rememberEquation
  | used => exact h.rememberEquation
  | text => exact h.rememberEquation
  | table => exact h.rememberTable
  | required => exact h.rememberTable
  | same other => exact h.rememberTable

/-- Contents written as an equation are coherent, for its pins were checked. -/
theorem coherent_ofEquation {e : Equation} {w : Width} {c : Contents}
    (h : ofEquation e w = .ok c) : c.Coherent := by
  obtain ⟨d, hd, rfl⟩ := map_eq_ok_iff.mp h
  obtain ⟨rfl, hpins⟩ := Equation.of_checked hd
  exact coherent_equation w hpins

/-- Contents that are read from a literal are its table, at the count of pins that was asked for. -/
theorem exists_table_of_ofLiteral {text : String} {count : Nat} {c : Contents}
    (h : ofLiteral text count = .ok c) :
    ∃ t : TruthTable, t.width.inputs = count ∧ c = ⟨t.width, .table t none⟩ := by
  obtain ⟨w, hw, h⟩ := bind_eq_ok_iff.mp h
  obtain ⟨t, ht, h⟩ := bind_eq_ok_iff.mp h
  cases h
  obtain ⟨value, -, rfl⟩ := map_eq_ok_iff.mp (Fault.within_eq_ok_iff.mp ht)
  exact ⟨.ofValue value w, Width.ofNat_eq_ok_iff.mp hw, rfl⟩

/-- Every constructor makes coherent contents. -/
theorem Built.coherent {c : Contents} (h : Built c) : c.Coherent := by
  cases h with
  | equation h =>
    obtain ⟨w, -, h⟩ := bind_eq_ok_iff.mp h
    exact coherent_ofEquation h
  | equationText h =>
    obtain ⟨e, -, h⟩ := bind_eq_ok_iff.mp h
    obtain ⟨w, -, h⟩ := bind_eq_ok_iff.mp h
    exact coherent_ofEquation h
  | table h =>
    obtain ⟨w, -, rfl⟩ := map_eq_ok_iff.mp h
    exact coherent_table rfl
  | literal h =>
    obtain ⟨t, -, rfl⟩ := exists_table_of_ofLiteral h
    exact coherent_table rfl

/-- The rank of a pin in a list of at most six is one of `A1` to `A6`, as is a pin that is not in
the list and was one of them before. -/
theorem rankMap_apply_le {pins : List Nat} (hpins : pins.length ≤ maxInputs) {i : Nat}
    (hi : 1 ≤ i ∧ i ≤ maxInputs) :
    1 ≤ (rankMap pins).apply i ∧ (rankMap pins).apply i ≤ maxInputs := by
  unfold PinMap.apply
  cases hl : (rankMap pins).lookup i with
  | none => exact hi
  | some j =>
    obtain ⟨l₁, l₂, heq, -⟩ := List.lookup_eq_some_iff.mp hl
    have hmem : (i, j) ∈ pins.zip (List.range' 1 pins.length) := by
      rw [show pins.zip (List.range' 1 pins.length) = l₁ ++ (i, j) :: l₂ from heq]
      simp
    have hj := List.mem_range'_1.mp (List.of_mem_zip hmem).2
    rw [Option.getD_some]
    omega

/-- Dropping the pins that do not matter keeps coherence. -/
theorem Coherent.reduce {c : Contents} (h : c.Coherent) : c.reduce.Coherent := by
  by_cases hall : c.requiredInputs.length = c.width.inputs
  · rw [reduce_of_all hall]
    exact h.rememberTable
  · rw [reduce_of_ne hall]
    refine coherent_equation c.width fun j hj => ?_
    obtain ⟨i, hi, rfl⟩ := Equation.mem_usedInputs_renumber.mp hj
    have hle : c.requiredInputs.length ≤ maxInputs :=
      Nat.le_trans c.table.length_requiredInputs_le c.table.width.le_max
    exact rankMap_apply_le hle ((c.table.within_toEquation.mono c.table.width.le_max) i hi)

/-- A change that is made keeps coherence. -/
theorem Coherent.change? {c d : Contents} (h : c.Coherent) {r : Change}
    (hd : c.change? r = .ok d) : d.Coherent := by
  cases r with
  | equation e => exact coherent_ofEquation hd
  | table t =>
    cases hd
    exact coherent_table rfl
  | width count =>
    rw [Contents.change?, setWidth_eq] at hd
    obtain ⟨w, -, rfl⟩ := map_eq_ok_iff.mp hd
    split
    · exact h
    · exact coherent_table rfl
  | reduce =>
    cases hd
    exact h.reduce
  | constant output =>
    cases hd
    exact coherent_equation c.width (Equation.within_constant _ _)

/-- A change keeps coherence, whether it is made or refused. -/
theorem Coherent.change {c : Contents} (h : c.Coherent) (r : Change) :
    (c.change r).2.Coherent := by
  cases hd : c.change? r with
  | error refusal => rw [change_of_error hd]; exact h
  | ok d => rw [change_of_ok hd]; exact h.change? hd

/-- A step keeps coherence. -/
theorem Coherent.step {c : Contents} (h : c.Coherent) (s : Step) : (c.step s).2.Coherent := by
  cases s with
  | change r => exact h.change r
  | query q => exact h.afterQuery q

/-- Reachable contents are coherent. -/
theorem Reachable.coherent {c : Contents} (h : c.Reachable) : c.Coherent := by
  induction h with
  | built h => exact h.coherent
  | step h s ih => exact ih.step s

/-- Every run keeps coherence: each step does. -/
theorem Coherent.run {c : Contents} (h : c.Coherent) (steps : List Step) :
    (c.run steps).2.Coherent := by
  induction steps generalizing c with
  | nil => exact h
  | cons s rest ih =>
    rw [run_cons]
    exact ih (h.step s)

/-! ## Questions leave no trace -/

/-- Forgetting keeps the width. -/
theorem width_forget (c : Contents) : c.forget.width = c.width := by
  obtain ⟨w, source⟩ := c
  cases source <;> rfl

/-- Nothing is left to forget a second time. -/
theorem forget_forget (c : Contents) : c.forget.forget = c.forget := by
  obtain ⟨w, source⟩ := c
  cases source <;> rfl

/-- A remembered equation can be forgotten again. -/
theorem forget_rememberEquation (c : Contents) : c.rememberEquation.forget = c.forget := by
  obtain ⟨w, source⟩ := c
  cases source <;> rfl

/-- A remembered table can be forgotten again. -/
theorem forget_rememberTable (c : Contents) : c.rememberTable.forget = c.forget := by
  obtain ⟨w, source⟩ := c
  cases source <;> rfl

/-- A question changes nothing that is not forgotten. -/
theorem forget_afterQuery (c : Contents) (q : Query) : (c.afterQuery q).forget = c.forget := by
  cases q with
  | equation => exact forget_rememberEquation c
  | used => exact forget_rememberEquation c
  | text => exact forget_rememberEquation c
  | table => exact forget_rememberTable c
  | required => exact forget_rememberTable c
  | same other => exact forget_rememberTable c

/-- What is forgotten would be derived anew: both forms stay. -/
theorem Coherent.forms_forget {c : Contents} (h : c.Coherent) :
    c.forget.equation = c.equation ∧ c.forget.table = c.table := by
  obtain ⟨w, source⟩ := c
  obtain ⟨t, known, hs, -, ht, he⟩ | ⟨e, known, hs, -, he, ht⟩ := h.forms
  · cases hs
    exact ⟨he.symm, ht.symm⟩
  · cases hs
    exact ⟨he.symm, ht.symm⟩

/-- Every question has the answer that it has with nothing remembered. -/
theorem Coherent.reply_forget {c : Contents} (h : c.Coherent) (q : Query) :
    c.forget.reply q = c.reply q := by
  obtain ⟨he, ht⟩ := h.forms_forget
  cases q <;> simp only [reply, usedInputs, requiredInputs, text, sameFunction, he, ht]

/-- Reducing does what it does with nothing remembered. -/
theorem Coherent.reduce_forget {c : Contents} (h : c.Coherent) :
    c.forget.reduce.forget = c.reduce.forget := by
  have ht := h.forms_forget.2
  have hreq : c.forget.requiredInputs = c.requiredInputs := by
    rw [requiredInputs, requiredInputs, ht]
  by_cases hall : c.requiredInputs.length = c.width.inputs
  · have hall' : c.forget.requiredInputs.length = c.forget.width.inputs := by
      rw [hreq, width_forget]; exact hall
    rw [reduce_of_all hall', reduce_of_all hall, forget_rememberTable, forget_rememberTable,
      forget_forget]
  · have hall' : c.forget.requiredInputs.length ≠ c.forget.width.inputs := by
      rw [hreq, width_forget]; exact hall
    rw [reduce_of_ne hall', reduce_of_ne hall, hreq, ht, width_forget]

/-- Changing the width does what it does with nothing remembered. -/
theorem Coherent.setWidth_forget {c : Contents} (h : c.Coherent) (count : Nat) :
    (c.forget.setWidth count).map forget = (c.setWidth count).map forget := by
  rw [setWidth_eq, setWidth_eq, h.forms_forget.2, width_forget]
  cases Width.ofNat count with
  | error refusal => rfl
  | ok w =>
    refine congrArg Except.ok ?_
    dsimp only
    by_cases hsame : w = c.width
    · rw [if_pos hsame, if_pos hsame, forget_forget]
    · rw [if_neg hsame, if_neg hsame]

/-- Every change does what it does with nothing remembered. -/
theorem Coherent.change?_forget {c : Contents} (h : c.Coherent) (r : Change) :
    (c.forget.change? r).map forget = (c.change? r).map forget := by
  have hw := c.width_forget
  cases r with
  | equation e => simp only [Contents.change?, hw]
  | table t => simp only [Contents.change?, setTable, hw]
  | constant output => simp only [Contents.change?, setConstant, hw]
  | width count => exact h.setWidth_forget count
  | reduce => exact congrArg Except.ok h.reduce_forget

/-- A change does the same to contents that are equal up to what they remember. -/
theorem change_congr {c d : Contents} (hc : c.Coherent) (hd : d.Coherent)
    (h : c.forget = d.forget) (r : Change) :
    (c.change r).1 = (d.change r).1 ∧ (c.change r).2.forget = (d.change r).2.forget := by
  have hsame : (c.change? r).map forget = (d.change? r).map forget := by
    rw [← hc.change?_forget, h, hd.change?_forget]
  exact change_of_map_eq hsame h

/-- Whether a step is a change. -/
def Step.isChange : Step → Bool
  | .change _ => true
  | .query _ => false

/-- Whether a step that gave this was a change. -/
def StepOutcome.isChange : StepOutcome → Bool
  | .changed _ => true
  | .replied _ => false

/-- A run and the run of its changes alone have the same outcomes of the changes and end in
contents that are equal up to what they remember. -/
theorem run_changes {c d : Contents} (hc : c.Coherent) (hd : d.Coherent)
    (h : c.forget = d.forget) (steps : List Step) :
    (c.run steps).1.filter StepOutcome.isChange = (d.run (steps.filter Step.isChange)).1 ∧
      (c.run steps).2.forget = (d.run (steps.filter Step.isChange)).2.forget := by
  induction steps generalizing c d with
  | nil => exact ⟨rfl, h⟩
  | cons s rest ih =>
    cases s with
    | change r =>
      -- Both runs make the change, with the same outcome.
      obtain ⟨hrefusal, hforget⟩ := change_congr hc hd h r
      obtain ⟨houtcomes, hlast⟩ := ih (hc.step (.change r)) (hd.step (.change r)) hforget
      have hfirst : (c.step (.change r)).1 = (d.step (.change r)).1 :=
        congrArg StepOutcome.changed hrefusal
      rw [List.filter_cons_of_pos rfl, run_cons, run_cons, List.filter_cons_of_pos rfl, hfirst,
        houtcomes]
      exact ⟨rfl, hlast⟩
    | query q =>
      -- Only the longer run asks the question, and it leaves no trace.
      have hforget : (c.step (.query q)).2.forget = d.forget := by
        rw [← h]
        exact forget_afterQuery c q
      rw [List.filter_cons_of_neg Bool.false_ne_true, run_cons,
        List.filter_cons_of_neg Bool.false_ne_true]
      exact ih (hc.step (.query q)) hd hforget

/-- However contents were built, after every run of changes and questions: the width is one of one
to six, the equation is over `A1` to `A6` and the table has the width; the table is the one of the
equation; a refused change leaves everything that follows as it would be without it; the changes
alone have the same outcomes and lead to the same equation and table, and to the same answer to
every question; and a remembered form is the one that would be derived anew. -/
theorem coherence_of_run {b c : Contents} (hb : Built b) (steps : List Step)
    (hc : (b.run steps).2 = c) :
    (1 ≤ c.width.inputs ∧ c.width.inputs ≤ 6 ∧ (∀ i ∈ c.equation.usedInputs, 1 ≤ i ∧ i ≤ 6) ∧
        c.table.width = c.width) ∧
      c.equation.toTableAt c.width.inputs = .ok c.table ∧
      (∀ r refusal rest, (c.change r).1 = some refusal → (c.change r).2.run rest = c.run rest) ∧
      (∃ outcomes d, b.run (steps.filter Step.isChange) = (outcomes, d) ∧
        (b.run steps).1.filter StepOutcome.isChange = outcomes ∧
        d.equation = c.equation ∧ d.table = c.table ∧ ∀ q, d.reply q = c.reply q) ∧
      (∀ t e, c.source = .table t (some e) → e = t.toEquation) ∧
      ∀ e t, c.source = .equation e (some t) → t = e.toTable c.width := by
  have hcoh : c.Coherent := hc ▸ hb.coherent.run steps
  have hequation := hcoh.within_equation
  refine ⟨⟨c.width.min_le, c.width.le_max, hequation, hcoh.width_table⟩, ?_, ?_, ?_, ?_, ?_⟩
  · rw [hequation.toTableAt, Width.ofNat_inputs, ← hcoh.toTable_equation]
    rfl
  · intro r refusal rest hrefusal
    cases hd : c.change? r with
    | error refusal' => rw [change_of_error hd]
    | ok d => rw [change_of_ok hd] at hrefusal; cases hrefusal
  · obtain ⟨houtcomes, hforget⟩ := run_changes hb.coherent hb.coherent rfl steps
    have hcohd := hb.coherent.run (steps.filter Step.isChange)
    rw [hc] at hforget
    refine ⟨_, _, rfl, houtcomes, ?_, ?_, fun q => ?_⟩
    · rw [← hcohd.forms_forget.1, ← hforget, hcoh.forms_forget.1]
    · rw [← hcohd.forms_forget.2, ← hforget, hcoh.forms_forget.2]
    · rw [← hcohd.reply_forget, ← hforget, hcoh.reply_forget]
  · intro t e hs
    obtain ⟨w, source⟩ := c
    cases hs
    exact hcoh.2 e rfl
  · intro e t hs
    obtain ⟨w, source⟩ := c
    cases hs
    exact hcoh.2 t rfl

/-- `A1*~A3` on two pins, widened to four and then reduced: the widened contents remember the
equation `A1` and refuse `A9`, and the reduced ones remember the table. -/
theorem coherence_of_run_widened :
    ∃ b c d, ofEquationAt (.and (.plain 1) (.inverted 3)) 2 = .ok b ∧
      (b.run [.query .table, .change (.width 4), .query .equation]).2 = c ∧
      (b.run [.change (.width 4), .change .reduce, .query .table]).2 = d ∧
      (c.change (.equation (.plain 9))).1 = some (.inputIndex 9) ∧
      (c.change (.equation (.plain 9))).2.run [.query .text] = c.run [.query .text] ∧
      c.source = .table c.table (some (.plain 1)) ∧ .plain 1 = c.table.toEquation ∧
      d.source = .equation (.plain 1) (some d.table) ∧
      d.table = (Equation.plain 1).toTable d.width := by
  have hb : Built ⟨⟨2, by decide, by decide⟩, .equation (.and (.plain 1) (.inverted 3)) none⟩ :=
    .equation (show ofEquationAt (.and (.plain 1) (.inverted 3)) 2 = .ok _ from rfl)
  obtain ⟨-, -, hrefused, -, hequation, -⟩ :=
    coherence_of_run hb [.query .table, .change (.width 4), .query .equation] rfl
  obtain ⟨-, -, -, -, -, htable⟩ :=
    coherence_of_run hb [.change (.width 4), .change .reduce, .query .table] rfl
  exact ⟨_, _, _, rfl, rfl, rfl, rfl, hrefused _ _ [.query .text] rfl, rfl, hequation _ _ rfl, rfl,
    htable _ _ rfl⟩

end Contents

end LutLogic
