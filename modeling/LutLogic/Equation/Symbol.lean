/-!
# Symbols of equation text

An equation is written with the two constants, the pins `A1` to `A6`, the inversion mark, three
operators and parentheses. `Symbol.finish` stands for the end of the text, which is not written
but which a message may have to name.
-/

namespace LutLogic

/-- A binary operator on Booleans. -/
inductive BinaryOp where
  /-- Both operands are 1. -/
  | and
  /-- At least one operand is 1. -/
  | or
  /-- Exactly one operand is 1. -/
  | xor
deriving DecidableEq, Repr

namespace BinaryOp

/-- The character that an operator is written with. -/
def symbol : BinaryOp → Char
  | and => '*'
  | or => '+'
  | xor => '@'

/-- The operator that a character stands for. -/
def ofSymbol? (c : Char) : Option BinaryOp :=
  if c = '*' then some and else if c = '+' then some or else if c = '@' then some xor else none

/-- The value of an operator on two operands. -/
def apply : BinaryOp → Bool → Bool → Bool
  | and, l, r => l && r
  | or, l, r => l || r
  | xor, l, r => l ^^ r

/-- A character stands for an operator exactly when the operator is written with it. -/
theorem ofSymbol?_eq_some_iff {c : Char} {op : BinaryOp} :
    ofSymbol? c = some op ↔ c = op.symbol := by
  constructor
  · intro h
    unfold ofSymbol? at h
    split at h
    · cases h; assumption
    · split at h
      · cases h; assumption
      · split at h
        · cases h; assumption
        · cases h
  · rintro rfl
    cases op <;> rfl

end BinaryOp

/-- The decimal digits of a pin number. -/
def pinDigits (index : Nat) : List Char := Nat.toDigits 10 index

/-- A pin by its name: `A` and the number. -/
def pinName (index : Nat) : List Char := 'A' :: pinDigits index

/-- A symbol of equation text. -/
inductive Symbol where
  /-- The constant `0`. -/
  | zero
  /-- The constant `1`. -/
  | one
  /-- An input pin by its number. -/
  | pin (index : Nat)
  /-- The inversion mark `~`. -/
  | tilde
  /-- A binary operator. -/
  | op (op : BinaryOp)
  /-- An opening parenthesis. -/
  | leftParen
  /-- A closing parenthesis. -/
  | rightParen
  /-- The end of the text. -/
  | finish
deriving DecidableEq, Repr

namespace Symbol

/-- The characters that a symbol is written with. -/
def chars : Symbol → List Char
  | zero => ['0']
  | one => ['1']
  | pin index => pinName index
  | tilde => ['~']
  | op o => [o.symbol]
  | leftParen => ['(']
  | rightParen => [')']
  | finish => []

/-- A symbol as a message names it: in quotes, and the end of the text in words. -/
def describe (s : Symbol) : String :=
  match s with
  | finish => "end of input"
  | _ => "'" ++ String.ofList s.chars ++ "'"

end Symbol

end LutLogic
