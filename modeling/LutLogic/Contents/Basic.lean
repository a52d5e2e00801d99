import LutLogic.Decomposition
import LutLogic.Equation.Parser
import LutLogic.Equation.Printer
import LutLogic.TruthTable.Literal

/-!
# Contents of a look-up table

The contents of a look-up table are kept in the form in which they were last written, an equation
or a truth table. The other form is worked out when it is asked for, and may be remembered beside
the first until the next change. Contents are compared by their tables, however they were written.

Changes are `setTable`, `setConstant` and `reduce`, which drops the pins that do not matter and
numbers the others from `A1` on, and two that can be refused. These are written as they are made in
place, one field after the other (`setEquationInPlace`, `setWidthInPlace`), so that what a refused
change leaves behind is not settled by their type.
-/

namespace LutLogic

/-- The form in which contents were last written, and the other form if it has been worked out. -/
inductive Source where
  /-- Written as a table. -/
  | table (table : TruthTable) (known : Option Equation)
  /-- Written as an equation. -/
  | equation (equation : Equation) (known : Option TruthTable)
deriving DecidableEq

/-- The function that a look-up table is programmed with. -/
structure Contents where
  /-- The number of pins. -/
  width : Width
  /-- The form last written. -/
  source : Source
deriving DecidableEq

namespace Contents

/-! ## Construction -/

/-- Contents written as a table, which takes the given width. -/
def ofTable (t : TruthTable) (width : Width) : Contents := ⟨width, .table (t.resize width) none⟩

/-- Contents written as a table, at `count` pins. -/
def ofTableAt (t : TruthTable) (count : Nat) : Except LutError Contents :=
  (Width.ofNat count).map (ofTable t)

/-- Contents written as an equation, whose pins are checked. -/
def ofEquation (e : Equation) (width : Width) : Except LutError Contents :=
  e.checked.map fun e => ⟨width, .equation e none⟩

/-- Contents written as an equation, at `count` pins. The count is judged before the pins. -/
def ofEquationAt (e : Equation) (count : Nat) : Except LutError Contents := do
  ofEquation e (← Width.ofNat count)

/-- Contents written as the text of an equation, at `count` pins. The text is read before the
count is judged. -/
def ofEquationText (text : String) (count : Nat) : Except LutError Contents := do
  ofEquationAt (← Equation.ofText text) count

/-- Contents written as a literal, at `count` pins. The count is judged before the text is
read. -/
def ofLiteral (text : String) (count : Nat) : Except LutError Contents := do
  let width ← Width.ofNat count
  let t ← TruthTable.ofLiteral text width
  return ⟨width, .table t none⟩

/-- Contents from a text: a literal if it starts with a radix mark, and an equation otherwise. -/
def ofText (text : String) (width : Width) : Except LutError Contents :=
  if isLiteral text.toList then ofLiteral text width.inputs else ofEquationText text width.inputs

/-! ## The two forms -/

/-- The equation of the contents. -/
def equation (c : Contents) : Equation :=
  match c.source with
  | .equation e _ => e
  | .table t known => known.getD t.toEquation

/-- The truth table of the contents. -/
def table (c : Contents) : TruthTable :=
  match c.source with
  | .table t _ => t
  | .equation e known => known.getD (e.toTable c.width)

/-- The same contents with the equation remembered. -/
def rememberEquation (c : Contents) : Contents :=
  match c.source with
  | .equation _ _ => c
  | .table t _ => { c with source := .table t (some c.equation) }

/-- The same contents with the table remembered. -/
def rememberTable (c : Contents) : Contents :=
  match c.source with
  | .table _ _ => c
  | .equation e _ => { c with source := .equation e (some c.table) }

/-- The pins that the equation mentions, in ascending order. -/
def usedInputs (c : Contents) : List Nat := c.equation.usedInputs

/-- The pins that can change the output, in ascending order. -/
def requiredInputs (c : Contents) : List Nat := c.table.requiredInputs

/-- Whether two contents have the same table. -/
def sameFunction (c d : Contents) : Bool := c.table == d.table

/-- The contents as text: the equation. -/
def text (c : Contents) : String := c.equation.text

/-! ## Changes -/

/-- A change of contents in place. Where it is refused, what it has written by then is not taken
back. -/
abbrev Update := EStateM LutError Contents Unit

/-- The contents that an update makes, or why it is refused. -/
def Update.result (u : Update) (c : Contents) : Except LutError Contents :=
  match u.run c with
  | .ok () d => .ok d
  | .error refusal _ => .error refusal

/-- Replaces the contents by an equation in place. The pins are checked before it is written. -/
def setEquationInPlace (e : Equation) : Update := do
  let e ← MonadExcept.ofExcept e.checked
  modify fun c => { c with source := .equation e none }

/-- Replaces the contents by a constant. -/
def setConstant (output : Bool) (c : Contents) : Contents :=
  { c with source := .equation (.constant output) none }

/-- Replaces the contents by a table, which takes the width of these contents. -/
def setTable (t : TruthTable) (c : Contents) : Contents :=
  { c with source := .table (t.resize c.width) none }

/-- Changes the number of pins in place. The number is judged before the width is written, and the
table is taken before as well, since that of an equation depends on the width. -/
def setWidthInPlace (count : Nat) : Update := do
  let width ← MonadExcept.ofExcept (Width.ofNat count)
  let c ← get
  if width = c.width then return
  else
    let t := c.table.resize width
    modify fun d => { d with width := width }
    modify fun d => { d with source := .table t none }

/-- The contents with another number of pins. Added pins do not matter, and removed ones are held at
0. -/
def setWidth (count : Nat) (c : Contents) : Except LutError Contents :=
  (setWidthInPlace count).result c

/-- The renumbering that moves the `i`-th pin of a list to number `i`, counted from 1. -/
def rankMap (pins : List Nat) : PinMap := pins.zip (List.range' 1 pins.length)

/-- Drops the pins that do not matter and numbers the others from `A1` on, in their order. The
number of pins stays. If every pin matters, the contents stay as they were written. -/
def reduce (c : Contents) : Contents :=
  let required := c.requiredInputs
  if required.length = c.width.inputs then c.rememberTable
  else
    -- The equation of the table mentions only pins that matter, so the ranks are all it needs.
    { c with source := .equation (c.table.toEquation.renumber (rankMap required).apply) none }

end Contents

end LutLogic
