import LutLogic.Equation.Basic
import LutLogic.TruthTable.Basic

/-!
# Equations of truth tables and truth tables of equations

`Equation.toTable` evaluates an equation in every row. `TruthTable.toEquation` goes back by
splitting on the highest input: the two halves of a table become equations, `Equation.select`
joins them in the shortest of a few shapes, and an input whose halves agree is left out. The
equation of a table has the table it came from, while the table of an equation may give a
different equation of the same function.
-/

namespace LutLogic

namespace Equation

/-- The equation that is `low` where input `A(input)` is 0 and `high` where it is 1. -/
def select (input : Nat) (low high : Equation) : Equation :=
  match low.constant?, high.constant? with
  | some false, some true => plain input
  | some true, some false => inverted input
  | some false, _ => and (plain input) high
  | _, some false => and (inverted input) low
  | some true, _ => or (inverted input) high
  | _, some true => or (plain input) low
  | _, _ => or (and (inverted input) low) (and (plain input) high)

/-- The equation of the table of `k` inputs whose rows are the bits of `value`. -/
def ofRows : Nat → Nat → Equation
  | 0, value => constant (decide (value = rowMask 0))
  | k + 1, value =>
    if value = 0 then constant false
    else if value = rowMask (k + 1) then constant true
    else
      -- The rows in which the highest input is 0, and those in which it is 1.
      let low := value &&& rowMask k
      let high := value >>> Nat.pow 2 k &&& rowMask k
      if low = high then ofRows k low else select (k + 1) (ofRows k low) (ofRows k high)

/-- The outputs of an equation in the rows below `rows`, the one of row `r` in bit `r`. -/
def rowBits (e : Equation) : Nat → Nat
  | 0 => 0
  | rows + 1 => e.rowBits rows ||| (e.evaluate rows).toNat <<< rows

/-- The table of an equation whose pins are in range; pins above the width are 0 in all rows. -/
def toTable (e : Equation) (width : Width) : TruthTable :=
  .ofValue (e.rowBits width.rows) width

/-- The table of an equation at `count` inputs. The count is judged before the pins. -/
def toTableAt (e : Equation) (count : Nat) : Except LutError TruthTable := do
  let width ← Width.ofNat count
  let e ← e.checked
  return e.toTable width

end Equation

/-- The equation of a table. Inputs that do not matter are not in it. -/
def TruthTable.toEquation (t : TruthTable) : Equation := .ofRows t.width.inputs t.value

end LutLogic
