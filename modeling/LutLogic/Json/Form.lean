import LutLogic.Cell.Basic
import LutLogic.Json.Basic

/-!
# Stored forms

The form in which tables, equations, operators, modes and widths are stored as JSON. A table is a
record of its literal and its width, an equation one of `Constant`, `Input` and `Binary` with its
parts. Reading checks widths and literals but not the pins of an equation.
-/

namespace LutLogic

namespace Width

/-- The stored form of a width: the number of inputs. -/
def toJson (w : Width) : Json := .nat w.inputs

/-- The width of a stored form. -/
def ofJson? (j : Json) : Option Width := j.word?.bind ofNat?

end Width

namespace BinaryOp

/-- The stored name of an operator. -/
def storedName : BinaryOp → String
  | and => "And"
  | or => "Or"
  | xor => "Xor"

/-- The operator of a stored name. -/
def ofStoredName? (name : String) : Option BinaryOp :=
  if name = "And" then some and
  else if name = "Or" then some or
  else if name = "Xor" then some xor
  else none

/-- The stored form of an operator. -/
def toJson (op : BinaryOp) : Json := .string op.storedName

/-- The operator of a stored form. -/
def ofJson? (j : Json) : Option BinaryOp := j.choice?.bind ofStoredName?

end BinaryOp

namespace Mode

/-- The stored form of a mode: its keyword. -/
def toJson (m : Mode) : Json := .string m.keyword

/-- The mode of a stored form. -/
def ofJson? (j : Json) : Option Mode := j.choice?.bind ofKeyword?

end Mode

/-- A table as it is stored: a literal and a number of inputs. -/
structure TableRecord where
  /-- The literal. -/
  init : String
  /-- The number of inputs. -/
  inputs : Nat
deriving DecidableEq, Repr

namespace TruthTable

/-- The record of a table, with the literal in hexadecimal. -/
def toRecord (t : TruthTable) : TableRecord := ⟨t.literal .hex, t.width.inputs⟩

/-- The table of a record. -/
def ofRecord (r : TableRecord) : Except LutError TruthTable := ofLiteralAt r.init r.inputs

/-- The stored form of a table. -/
def toJson (t : TruthTable) : Json :=
  .object [("init", .string t.toRecord.init), ("num_inputs", .nat t.toRecord.inputs)]

/-- The table of a stored form. -/
def ofJson? (j : Json) : Option TruthTable :=
  match j.record? ["init", "num_inputs"] with
  | some [init, inputs] => do
    let init ← init.string?
    let inputs ← inputs.word?
    (ofRecord ⟨init, inputs⟩).toOption
  | _ => none

end TruthTable

namespace Equation

/-- The stored form of an equation. -/
def toJson : Equation → Json
  | constant output => .object [("Constant", .bool output)]
  | input index inverted =>
    .object [("Input", .object [("index", .nat index), ("inverted", .bool inverted)])]
  | binary op left right =>
    .object [("Binary",
      .object [("op", op.toJson), ("left", left.toJson), ("right", right.toJson)])]

/-- The pin of a stored record. -/
def inputOfJson? (j : Json) : Option Equation :=
  match j.record? ["index", "inverted"] with
  | some [index, inverted] => do
    let index ← index.word?
    let inverted ← inverted.bool?
    return input index inverted
  | _ => none

/-- The equation of a stored form. -/
def ofJson? (j : Json) : Option Equation :=
  match j with
  | .object [("Constant", .bool output)] => some (constant output)
  | .object [("Input", payload)] => inputOfJson? payload
  | .object [("Binary", .array [op, left, right])] => do
    return binary (← BinaryOp.ofJson? op) (← ofJson? left) (← ofJson? right)
  | .object [("Binary", .object fields)] =>
    match hl : fields.lookup "left", hr : fields.lookup "right" with
    | some left, some right => do
      have := Json.sizeOf_lookup_lt hl
      have := Json.sizeOf_lookup_lt hr
      let op ← (fields.lookup "op").bind BinaryOp.ofJson?
      return binary op (← ofJson? left) (← ofJson? right)
    | _, _ => none
  | _ => none
termination_by j
decreasing_by all_goals (simp; omega)

end Equation

end LutLogic
