import LutLogic.Error

/-!
# Equations

An equation describes the output of a look-up table by constants, input pins and binary
operators. It is a tree, and two equations are equal only as trees: `A1*A2` and `A2*A1` differ.
`evaluate` gives the output for an assignment of the pins, `usedInputs` the pins that are
mentioned, whether or not they matter, and `renumber` moves every pin at once.
-/

namespace LutLogic

/-- An equation over input pins. -/
inductive Equation where
  /-- A constant output. -/
  | constant (output : Bool)
  /-- The input pin of a number, possibly inverted. -/
  | input (index : Nat) (inverted : Bool)
  /-- A binary operation. -/
  | binary (op : BinaryOp) (left right : Equation)
deriving DecidableEq, Repr, Inhabited

/-- The highest pin number that a row can give a value to; rows are words of 32 bits. -/
def maxRowPin : Nat := 32

/-- The value of a pin in row `row`: pin 1 is bit 0, and so on. Pin 0 and pins above 32 are 0. -/
def pinValue (row index : Nat) : Bool :=
  decide (1 ≤ index ∧ index ≤ maxRowPin) && row.testBit (index - 1)

/-- A set of pins in ascending order, with one more pin. -/
def insertPin (index : Nat) : List Nat → List Nat
  | [] => [index]
  | p :: ps =>
    if index < p then index :: p :: ps
    else if index = p then p :: ps
    else p :: insertPin index ps

/-- A finite renumbering of pins, as pairs of an old and a new number. -/
abbrev PinMap := List (Nat × Nat)

/-- The new number of a pin; a pin that is not listed keeps its number. -/
def PinMap.apply (m : PinMap) (index : Nat) : Nat := (m.lookup index).getD index

namespace Equation

/-- The pin of a number, not inverted. -/
def plain (index : Nat) : Equation := input index false

/-- The pin of a number, inverted. -/
def inverted (index : Nat) : Equation := input index true

/-- The conjunction of two equations. -/
def and (left right : Equation) : Equation := binary .and left right

/-- The disjunction of two equations. -/
def or (left right : Equation) : Equation := binary .or left right

/-- The exclusive disjunction of two equations. -/
def xor (left right : Equation) : Equation := binary .xor left right

/-- The output of an equation that is a constant. An equation such as `(A1+~A1)` is not one. -/
def constant? : Equation → Option Bool
  | constant output => some output
  | _ => none

/-- The output in row `row`. -/
def evaluate (row : Nat) : Equation → Bool
  | constant output => output
  | input index inverted => pinValue row index != inverted
  | binary op left right => op.apply (left.evaluate row) (right.evaluate row)

/-- A constant has its output in every row. -/
@[simp] theorem evaluate_constant (row : Nat) (output : Bool) :
    (constant output).evaluate row = output :=
  rfl

/-- A pin has its value. -/
@[simp] theorem evaluate_plain (row index : Nat) :
    (plain index).evaluate row = pinValue row index :=
  Bool.xor_false _

/-- An inverted pin has the opposite value. -/
@[simp] theorem evaluate_inverted (row index : Nat) :
    (inverted index).evaluate row = !pinValue row index :=
  Bool.xor_true _

/-- A conjunction is evaluated part by part. -/
@[simp] theorem evaluate_and (row : Nat) (left right : Equation) :
    (and left right).evaluate row = (left.evaluate row && right.evaluate row) :=
  rfl

/-- A disjunction is evaluated part by part. -/
@[simp] theorem evaluate_or (row : Nat) (left right : Equation) :
    (or left right).evaluate row = (left.evaluate row || right.evaluate row) :=
  rfl

/-- Gives every pin its number under `f`, all pins at once. -/
def renumber (f : Nat → Nat) : Equation → Equation
  | constant output => constant output
  | input index inverted => input (f index) inverted
  | binary op left right => binary op (left.renumber f) (right.renumber f)

/-- The pins of `ps`, an ascending set, and those that an equation mentions. -/
def addInputs (ps : List Nat) : Equation → List Nat
  | constant _ => ps
  | input index _ => insertPin index ps
  | binary _ left right => right.addInputs (left.addInputs ps)

/-- The pins that an equation mentions, in ascending order. -/
def usedInputs (e : Equation) : List Nat := e.addInputs []

/-- The highest pin that an equation mentions. -/
def maxInput? (e : Equation) : Option Nat := e.usedInputs.getLast?

/-- The lowest pin that an equation mentions although no look-up table has it. -/
def badInput? (e : Equation) : Option Nat :=
  e.usedInputs.find? fun i => !decide (minInputs ≤ i ∧ i ≤ maxInputs)

/-- The equation itself, if every pin is one of `A1` to `A6`. -/
def checked (e : Equation) : Except LutError Equation :=
  match e.badInput? with
  | some index => .error (.inputIndex index)
  | none => .ok e

/-- A binary operation from parts that may not have been given; the first one that is missing is
reported. -/
def ofParts (op : Option BinaryOp) (left right : Option Equation) : Except LutError Equation :=
  match op, left, right with
  | none, _, _ => .error (.missing .operator)
  | _, none, _ => .error (.missing .left)
  | _, _, none => .error (.missing .right)
  | some o, some l, some r => .ok (binary o l r)

end Equation

end LutLogic
