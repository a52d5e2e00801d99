import LutLogic.Equation.Basic

/-!
# Writing equations

An equation is written with parentheses around every operation and no spaces, so that its text
shows its tree.
-/

namespace LutLogic.Equation

/-- The characters of an equation, each operation in parentheses. -/
def chars : Equation → List Char
  | constant false => ['0']
  | constant true => ['1']
  | input index false => pinName index
  | input index true => '~' :: pinName index
  | binary op left right => '(' :: left.chars ++ op.symbol :: right.chars ++ [')']

/-- The text of an equation. -/
def text (e : Equation) : String := String.ofList e.chars

end LutLogic.Equation
