import LutLogic.Decomposition

/-!
# Reference pairs

Pairs of a truth table and an equation of the same function, against which the conversions between
the two can be checked: the constants, each pin alone, `A6` with each other pin, and a few
functions whose equation is not the one that a table gives.
-/

namespace LutLogic

/-- How the table and the equation of a pair are related. -/
inductive Agreement where
  /-- Each gives the other. -/
  | exact
  /-- The table gives the same operation, with the operands in either order. -/
  | anyOperandOrder
  /-- The equation gives the table, and the table a different equation. -/
  | encodeOnly
deriving DecidableEq, Repr

/-- The name of an agreement. -/
def Agreement.name : Agreement → String
  | exact => "Exact"
  | anyOperandOrder => "AnyOperandOrder"
  | encodeOnly => "EncodeOnly"

/-- Whether two equations are the same operation on the same operands, in either order. -/
def Equation.sameOperation : Equation → Equation → Bool
  | .binary o l r, .binary p m s => o == p && (l == m && r == s || l == s && r == m)
  | _, _ => false

/-- A table and an equation of the same function. -/
structure ReferencePair where
  /-- The table. -/
  table : TruthTable
  /-- The equation. -/
  equation : Equation
  /-- How they are related. -/
  agreement : Agreement
deriving DecidableEq

namespace ReferencePair

/-- The width of five inputs. -/
def five : Width := ⟨5, by decide, by decide⟩

/-- A pair in which each form gives the other. -/
def exact (value : Nat) (width : Width) (e : Equation) : ReferencePair :=
  ⟨.ofValue value width, e, .exact⟩

/-- The value of a six-input table with every row inverted. -/
def complement (value : Nat) : Nat := rowMask 6 - value

/-- The constants. -/
def constants : List ReferencePair :=
  [exact 0 .six (.constant false), exact 0 five (.constant false),
    exact (rowMask 6) .six (.constant true), exact (rowMask 6) five (.constant true),
    exact (rowMask 5) five (.constant true)]

/-- Pin `A(index)` alone, plain and inverted, at six inputs and, up to the fifth pin, at five. -/
def single (index : Nat) (pattern : Nat) : List ReferencePair :=
  let plain := Equation.plain index
  let inverted := Equation.inverted index
  let low := complement pattern
  [exact pattern .six plain, exact low .six inverted] ++
    if index ≤ 5 then
      [exact pattern five plain, exact low five inverted,
        exact (pattern &&& rowMask 5) five plain, exact (low &&& rowMask 5) five inverted]
    else []

/-- Pin `A6` with a lower pin: the conjunction of both inverted, and the disjunction. -/
def withSixth (index : Nat) (pattern : Nat) : List ReferencePair :=
  let value := complement pattern &&& rowMask 5
  [⟨.ofValue value .six, .and (.inverted 6) (.inverted index), .anyOperandOrder⟩,
    ⟨.ofValue (complement value) .six, .or (.plain 6) (.plain index), .anyOperandOrder⟩]

/-- Functions whose table gives another equation. -/
def oneWay : List ReferencePair :=
  [⟨.ofValue 0x6666666666666666 .six, .xor (.plain 1) (.plain 2), .encodeOnly⟩,
    ⟨.ofValue (rowMask 6) .six, .or (.plain 6) (.inverted 6), .encodeOnly⟩,
    ⟨.ofValue 0 .six, .and (.plain 6) (.inverted 6), .encodeOnly⟩]

/-- All reference pairs. -/
def all : List ReferencePair :=
  let numbered := (List.range' 1 inputPatterns.length).zip inputPatterns
  constants ++ numbered.flatMap (fun (i, p) => single i p)
    ++ (numbered.take 5).flatMap (fun (i, p) => withSixth i p) ++ oneWay

end ReferencePair

end LutLogic
