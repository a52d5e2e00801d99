import LutLogic.Equation.Basic
import LutLogic.Equation.Token

/-!
# Reading equations

A chain is an operand, or an operand, an operator and a chain; operators have no precedence, so a
chain nests to the right. An operand is a constant, a pin that may be inverted, or a chain in
parentheses. A group and the rest of a chain after an operator lie one level deeper than what they
stand in, and no part may lie more than `maxNesting` levels deep: `readChain stop n` reads a chain
whose parts may go `n` levels deeper.
-/

namespace LutLogic

/-- The most levels of groups and chained operators on one path. -/
def maxNesting : Nat := 256

namespace Equation

/-- The outcome of reading a part of an equation: the part and the tokens after it. -/
abbrev Reading := Except Fault (Equation × List Token)

/-- The next token, which is the end of the text if none is left. -/
def nextToken (stop : Nat) : List Token → Token
  | [] => ⟨.finish, stop⟩
  | t :: _ => t

/-- Reads an operand. What follows an opening parenthesis is read by `deeper`. -/
def readOperand (stop : Nat) (deeper : List Token → Reading) : List Token → Reading
  | [] => .error ⟨stop, .expectedOperand .finish⟩
  | t :: ts =>
    match t.symbol with
    | .zero => .ok (constant false, ts)
    | .one => .ok (constant true, ts)
    | .pin index => .ok (plain index, ts)
    | .tilde =>
      match ts with
      | [] => .error ⟨stop, .expectedInput .finish⟩
      | u :: us =>
        match u.symbol with
        | .pin index => .ok (inverted index, us)
        | s => .error ⟨u.offset, .expectedInput s⟩
    | .leftParen =>
      match deeper ts with
      | .error f => .error f
      | .ok (e, us) =>
        match us with
        | [] => .error ⟨stop, .expected .rightParen .finish⟩
        | u :: vs =>
          if u.symbol = .rightParen then .ok (e, vs)
          else .error ⟨u.offset, .expected .rightParen u.symbol⟩
    | s => .error ⟨t.offset, .expectedOperand s⟩

/-- Reads a chain. What follows an opening parenthesis or an operator is read by `deeper`. -/
def readLevel (stop : Nat) (deeper : List Token → Reading) (ts : List Token) : Reading :=
  match readOperand stop deeper ts with
  | .error f => .error f
  | .ok (left, []) => .ok (left, [])
  | .ok (left, u :: us) =>
    match u.symbol with
    | .op op =>
      -- The rest of the chain is the right operand and counts as one level.
      match deeper us with
      | .error f => .error f
      | .ok (right, vs) => .ok (binary op left right, vs)
    -- Anything else ends the chain and is left for the caller to judge.
    | _ => .ok (left, u :: us)

/-- Reads a chain that may go `levels` levels deeper. -/
def readChain (stop : Nat) : Nat → List Token → Reading
  | 0 => readLevel stop fun ts => .error ⟨(nextToken stop ts).offset, .nestedTooDeeply⟩
  | levels + 1 => readLevel stop (readChain stop levels)

/-- Reads a whole equation: a chain and then the end of the text. -/
def readTokens (ts : Tokens) : Except Fault Equation :=
  match readChain ts.stop maxNesting ts.tokens with
  | .error f => .error f
  | .ok (e, []) => .ok e
  | .ok (_, u :: _) => .error ⟨u.offset, .expected .finish u.symbol⟩

/-- Reads the equation that characters stand for. -/
def read (text : List Char) : Except Fault Equation :=
  match Tokens.scan text with
  | .error f => .error f
  | .ok ts => readTokens ts

/-- The equation that a text stands for. -/
def ofText (text : String) : Except LutError Equation :=
  Fault.within .equation text (read text.toList)

end Equation

end LutLogic
