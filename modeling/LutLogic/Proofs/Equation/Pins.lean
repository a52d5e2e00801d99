import LutLogic.Equation.Basic

/-!
# The pins of an equation

`usedInputs` collects pins into an ascending list while it walks the tree, and `checked` looks in
that list for a pin that no look-up table has. The lemmas here say which pins the list holds, one
lemma for each shape of an equation, so that later proofs need not open the walk. `Within n` is the
bound that they are used with: every pin of the equation is one of `A1` to `A(n)`.
-/

namespace LutLogic

/-- Adding a pin to an ascending set adds that pin and no other. -/
theorem mem_insertPin {i index : Nat} {ps : List Nat} :
    i ∈ insertPin index ps ↔ i = index ∨ i ∈ ps := by
  induction ps with
  | nil => simp [insertPin]
  | cons p ps ih =>
    unfold insertPin
    split
    · simp
    · split
      · next heq => subst heq; simp
      · rw [List.mem_cons, ih, List.mem_cons]
        exact or_left_comm

/-- Adding a pin to an ascending set leaves it ascending. -/
theorem pairwise_insertPin {index : Nat} {ps : List Nat} (h : ps.Pairwise (· < ·)) :
    (insertPin index ps).Pairwise (· < ·) := by
  induction ps with
  | nil => simp [insertPin]
  | cons p ps ih =>
    obtain ⟨hp, hps⟩ := List.pairwise_cons.mp h
    unfold insertPin
    split
    · next hlt =>
      refine List.pairwise_cons.mpr ⟨fun i hi => ?_, h⟩
      rcases List.mem_cons.mp hi with rfl | hi
      · exact hlt
      · exact Nat.lt_trans hlt (hp i hi)
    · split
      · exact h
      · refine List.pairwise_cons.mpr ⟨fun i hi => ?_, ih hps⟩
        rcases mem_insertPin.mp hi with rfl | hi
        · omega
        · exact hp i hi

namespace Equation

/-- The walk keeps the pins it starts with and adds those of the equation. -/
theorem mem_addInputs {i : Nat} {e : Equation} {ps : List Nat} :
    i ∈ e.addInputs ps ↔ i ∈ ps ∨ i ∈ e.usedInputs := by
  unfold usedInputs
  induction e generalizing ps with
  | constant output => simp [addInputs]
  | input index inverted => simp [addInputs, mem_insertPin, or_comm]
  | binary op left right ihl ihr =>
    simp only [addInputs]
    rw [ihr, ihl, or_assoc]
    exact or_congr_right ihr.symm

/-- The pins of an equation are listed in ascending order. -/
theorem pairwise_usedInputs (e : Equation) : e.usedInputs.Pairwise (· < ·) := by
  have hwalk : ∀ ps : List Nat, ps.Pairwise (· < ·) → (e.addInputs ps).Pairwise (· < ·) := by
    induction e with
    | constant output => exact fun ps h => h
    | input index inverted => exact fun ps h => pairwise_insertPin h
    | binary op left right ihl ihr => exact fun ps h => ihr _ (ihl _ h)
  exact hwalk [] List.Pairwise.nil

/-- A constant mentions no pin. -/
@[simp] theorem mem_usedInputs_constant {i : Nat} {output : Bool} :
    i ∈ (constant output).usedInputs ↔ False := by
  simp [usedInputs, addInputs]

/-- A pin mentions itself. -/
@[simp] theorem mem_usedInputs_input {i index : Nat} {inverted : Bool} :
    i ∈ (input index inverted).usedInputs ↔ i = index := by
  simp [usedInputs, addInputs, mem_insertPin]

/-- An operation mentions the pins of its operands. -/
@[simp] theorem mem_usedInputs_binary {i : Nat} {op : BinaryOp} {left right : Equation} :
    i ∈ (binary op left right).usedInputs ↔ i ∈ left.usedInputs ∨ i ∈ right.usedInputs := by
  rw [usedInputs, addInputs, mem_addInputs]
  exact Iff.rfl

/-- What holds of every pin of an operation holds of every pin of both operands. -/
theorem forall_mem_usedInputs_binary {p : Nat → Prop} {op : BinaryOp} {left right : Equation} :
    (∀ i ∈ (binary op left right).usedInputs, p i) ↔
      (∀ i ∈ left.usedInputs, p i) ∧ ∀ i ∈ right.usedInputs, p i := by
  simp only [mem_usedInputs_binary, or_imp, forall_and]

/-- Renumbering moves every pin that is mentioned. -/
theorem mem_usedInputs_renumber {j : Nat} {f : Nat → Nat} {e : Equation} :
    j ∈ (e.renumber f).usedInputs ↔ ∃ i ∈ e.usedInputs, f i = j := by
  induction e with
  | constant output => simp [renumber]
  | input index inverted => simp [renumber, eq_comm]
  | binary op left right ihl ihr =>
    simp only [renumber, mem_usedInputs_binary, ihl, ihr]
    constructor
    · rintro (⟨i, hi, h⟩ | ⟨i, hi, h⟩)
      · exact ⟨i, .inl hi, h⟩
      · exact ⟨i, .inr hi, h⟩
    · rintro ⟨i, hi | hi, h⟩
      · exact .inl ⟨i, hi, h⟩
      · exact .inr ⟨i, hi, h⟩

/-! ## Pins and outputs -/

/-- An equation is evaluated under a renumbering as the equation itself is in a row in which every
pin has the value of the pin that it is moved to. -/
theorem evaluate_renumber {e : Equation} {f : Nat → Nat} {x y : Nat}
    (h : ∀ i ∈ e.usedInputs, pinValue x (f i) = pinValue y i) :
    (e.renumber f).evaluate x = e.evaluate y := by
  induction e with
  | constant output => rfl
  | input index inverted =>
    have hi := h index (mem_usedInputs_input.mpr rfl)
    rw [renumber, evaluate, evaluate, hi]
  | binary op left right ihl ihr =>
    obtain ⟨hl, hr⟩ := forall_mem_usedInputs_binary.mp h
    rw [renumber, evaluate, evaluate, ihl hl, ihr hr]

/-- A renumbering keeps the equation exactly if it keeps every pin that is mentioned. -/
theorem renumber_eq_self_iff {e : Equation} {f : Nat → Nat} :
    e.renumber f = e ↔ ∀ i ∈ e.usedInputs, f i = i := by
  induction e with
  | constant output => simp [renumber]
  | input index inverted => simp [renumber]
  | binary op left right ihl ihr =>
    rw [forall_mem_usedInputs_binary, ← ihl, ← ihr, renumber, binary.injEq]
    exact and_iff_right rfl

/-- The output depends only on the pins that are mentioned. -/
theorem evaluate_congr {e : Equation} {x y : Nat}
    (h : ∀ i ∈ e.usedInputs, pinValue x i = pinValue y i) : e.evaluate x = e.evaluate y := by
  have hid : (e.renumber id).evaluate x = e.evaluate y := evaluate_renumber h
  rwa [(renumber_eq_self_iff (f := id)).mpr fun i _ => rfl] at hid

/-! ## Pins within a bound -/

/-- Every pin of the equation is one of `A1` to `A(n)`. -/
def Within (n : Nat) (e : Equation) : Prop := ∀ i ∈ e.usedInputs, 1 ≤ i ∧ i ≤ n

/-- A constant is within every bound. -/
theorem within_constant (n : Nat) (output : Bool) : (constant output).Within n := by
  simp [Within]

/-- A pin is within the bounds that it does not exceed. -/
theorem within_input_iff {n index : Nat} {inverted : Bool} :
    (input index inverted).Within n ↔ 1 ≤ index ∧ index ≤ n := by
  constructor
  · intro h
    exact h index (mem_usedInputs_input.mpr rfl)
  · intro h i hi
    rw [mem_usedInputs_input] at hi
    exact hi ▸ h

/-- An operation is within the bounds that both operands are within. -/
theorem within_binary_iff {n : Nat} {op : BinaryOp} {left right : Equation} :
    (binary op left right).Within n ↔ left.Within n ∧ right.Within n :=
  forall_mem_usedInputs_binary

/-- A bound may be raised. -/
theorem Within.mono {m n : Nat} {e : Equation} (h : e.Within m) (hmn : m ≤ n) : e.Within n :=
  fun i hi => ⟨(h i hi).1, Nat.le_trans (h i hi).2 hmn⟩

/-- No pin is reported exactly when every pin is one of `A1` to `A6`. -/
theorem badInput?_eq_none_iff {e : Equation} : e.badInput? = none ↔ e.Within maxInputs := by
  have hin : ∀ i, ¬(!decide (minInputs ≤ i ∧ i ≤ maxInputs)) = true ↔ 1 ≤ i ∧ i ≤ maxInputs := by
    intro i
    rw [Bool.not_eq_true, Bool.not_eq_false', decide_eq_true_eq]
    exact Iff.rfl
  rw [badInput?, List.find?_eq_none]
  exact forall₂_congr fun i _ => hin i

/-- An equation over `A1` to `A6` passes the check unchanged. -/
theorem Within.checked {e : Equation} (h : e.Within maxInputs) : e.checked = .ok e := by
  rw [Equation.checked, badInput?_eq_none_iff.mpr h]

/-- What passes the check is the equation itself, over `A1` to `A6`. -/
theorem of_checked {e d : Equation} (h : e.checked = .ok d) : d = e ∧ e.Within maxInputs := by
  unfold Equation.checked at h
  split at h
  · cases h
  · next hnone =>
    cases h
    exact ⟨rfl, badInput?_eq_none_iff.mp hnone⟩

end Equation

end LutLogic
