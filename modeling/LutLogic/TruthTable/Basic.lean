import LutLogic.Error

/-!
# Truth tables

A truth table lists the output of a look-up table for every assignment of its inputs. Row `r` is
the assignment in which input `A1` has bit 0 of `r`, `A2` bit 1, and so on, and the output in row
`r` is bit `r` of the table's value. No bit of the value lies above the last row, so two tables of
one width with the same rows are equal.

`resize` changes the width: shrinking keeps the low rows, growing repeats the pattern, so that the
added inputs do not matter. `cofactors` splits a table on one input, and an input is required if
the two halves differ.
-/

namespace LutLogic

/-- Bit `r` of the pattern at place `i` is the value of input `A(i + 1)` in row `r`: each pattern
is the six-input table of one input. -/
def inputPatterns : List Nat := [
  0xAAAAAAAAAAAAAAAA,
  0xCCCCCCCCCCCCCCCC,
  0xF0F0F0F0F0F0F0F0,
  0xFF00FF00FF00FF00,
  0xFFFF0000FFFF0000,
  0xFFFFFFFF00000000]

/-- The outputs of a look-up table for all assignments of its inputs. -/
structure TruthTable where
  /-- The number of inputs. -/
  width : Width
  /-- The outputs, the one of row `r` in bit `r`. -/
  value : Nat
  /-- No bit lies above the last row. -/
  value_lt : value < Nat.pow 2 width.rows
deriving DecidableEq

namespace TruthTable

/-- The table of the low bits of `value`; bits above the last row are dropped. -/
def ofValue (value : Nat) (width : Width) : TruthTable where
  width := width
  value := value % Nat.pow 2 width.rows
  value_lt := Nat.mod_lt _ (Nat.two_pow_pos _)

/-- The table of `value` at `count` inputs, if that is a width. -/
def ofValueAt (value count : Nat) : Except LutError TruthTable :=
  (Width.ofNat count).map (ofValue value)

/-- The table with the same output in every row. -/
def constant (output : Bool) (width : Width) : TruthTable :=
  ofValue (if output then width.mask else 0) width

/-- The output in row `row`, and 0 for a row beyond the table. -/
def bit (t : TruthTable) (row : Nat) : Bool := t.value.testBit row

/-- The value of a table over `k` inputs, repeated over `steps` further inputs. -/
def repeatPattern (value k : Nat) : Nat → Nat
  | 0 => value
  | steps + 1 =>
    -- The pattern fills the rows so far; it goes once more above them.
    let v := repeatPattern value k steps
    v ||| v <<< Nat.pow 2 (k + steps)

/-- The table at another width. Shrinking keeps the low rows; growing repeats the pattern. -/
def resize (t : TruthTable) (width : Width) : TruthTable :=
  ofValue (repeatPattern t.value t.width.inputs (width.inputs - t.width.inputs)) width

/-- The table at `count` inputs, if that is a width. -/
def resizeAt (t : TruthTable) (count : Nat) : Except LutError TruthTable :=
  (Width.ofNat count).map t.resize

/-- Resizes a table in place. The number of inputs is judged before the table is touched. -/
def resizeInPlace (count : Nat) : EStateM LutError TruthTable Unit := do
  let width ← MonadExcept.ofExcept (Width.ofNat count)
  modify fun t => t.resize width

/-- The output of a table that has the same output in every row. -/
def constant? (t : TruthTable) : Option Bool :=
  if t.value = 0 then some false else if t.value = t.width.mask then some true else none

/-- The tables with input `A(input)` held at 0 and at 1, both of the same width and independent of
that input; none for an input that the table does not have. -/
def cofactors (t : TruthTable) (input : Nat) : Option (TruthTable × TruthTable) :=
  if h : 1 ≤ input ∧ input ≤ t.width.inputs then
    have inside : input - 1 < inputPatterns.length := by
      have := t.width.le_max
      simp only [maxInputs] at this
      simp only [inputPatterns, List.length_cons, List.length_nil]
      omega
    let pattern := inputPatterns.get ⟨input - 1, inside⟩
    let stride := Nat.pow 2 (input - 1)
    -- The rows in which the input is 0, and those in which it is 1 moved to the same places.
    let low := t.value &&& (rowMask maxInputs ^^^ pattern)
    let high := (t.value &&& pattern) >>> stride
    -- Both are copied to the rows that are left free, where the input is 1.
    some (ofValue (low ||| low <<< stride) t.width, ofValue (high ||| high <<< stride) t.width)
  else none

/-- Whether input `A(input)` can change the output. -/
def dependsOn (t : TruthTable) (input : Nat) : Bool :=
  match t.cofactors input with
  | some (low, high) => low != high
  | none => false

/-- The inputs that can change the output, in ascending order. -/
def requiredInputs (t : TruthTable) : List Nat :=
  (List.range' 1 t.width.inputs).filter t.dependsOn

end TruthTable

end LutLogic
