import LutLogic.TruthTable.Basic

/-!
# Truth tables as literals

A truth table is written `0x` with one hexadecimal digit for every four rows, or `0b` with one
binary digit for every row, the last row first. `TruthTable.literal` writes exactly that many
digits, upper case. `TruthTable.ofLiteral` reads either radix with any number of digits that fits
64 bits, in either case, and keeps the rows of the width asked for.
-/

namespace LutLogic

/-- The radix of a literal. -/
inductive Radix where
  /-- Base 16, written after `0x`. -/
  | hex
  /-- Base 2, written after `0b`. -/
  | binary
deriving DecidableEq, Repr

namespace Radix

/-- The number of digits. -/
def base : Radix → Nat
  | hex => 16
  | binary => 2

/-- The letter after the leading zero of a literal. -/
def mark : Radix → Char
  | hex => 'x'
  | binary => 'b'

/-- The most digits that fit 64 bits. -/
def capacity : Radix → Nat
  | hex => 16
  | binary => 64

/-- The number of digits of a table: a binary digit for every row, a hexadecimal digit for every
four, and never less than one. -/
def digitCount (r : Radix) (width : Width) : Nat :=
  match r with
  | hex => max (width.rows / 4) 1
  | binary => width.rows

end Radix

/-- The digit of value `d` below sixteen, letters in upper case. -/
def hexDigit (d : Nat) : Char := if d < 10 then Char.ofNat (48 + d) else Char.ofNat (55 + d)

/-- The value of a hexadecimal digit of either case. -/
def hexDigitValue? (c : Char) : Option Nat :=
  if '0' ≤ c ∧ c ≤ '9' then some (c.toNat - 48)
  else if 'A' ≤ c ∧ c ≤ 'F' then some (c.toNat - 55)
  else if 'a' ≤ c ∧ c ≤ 'f' then some (c.toNat - 87)
  else none

namespace Radix

/-- The value of a digit of this radix. -/
def digitValue? (r : Radix) (c : Char) : Option Nat :=
  (hexDigitValue? c).filter (· < r.base)

/-- The last `count` digits of `value`. -/
def writeDigits (r : Radix) : Nat → Nat → List Char
  | 0, _ => []
  | count + 1, value => writeDigits r count (value / r.base) ++ [hexDigit (value % r.base)]

/-- Reads digits that continue a number of value `acc`; the first of them is at byte `pos`. -/
def readDigits (r : Radix) (pos acc : Nat) : List Char → Except Fault Nat
  | [] => .ok acc
  | c :: cs =>
    match r.digitValue? c with
    | none => .error ⟨pos, .unrecognizedCharacter⟩
    | some d => readDigits r (pos + c.utf8Size) (acc * r.base + d) cs

/-- The radix that a literal announces, and the text after the mark. -/
def ofMark? : List Char → Option (Radix × List Char)
  | '0' :: 'x' :: digits => some (hex, digits)
  | '0' :: 'b' :: digits => some (binary, digits)
  | _ => none

/-- Reads the value of a literal. The number of digits is judged by the length in bytes and before
the digits themselves. -/
def readLiteral (text : List Char) : Except Fault Nat :=
  match ofMark? text with
  | none => .error ⟨0, .noRadixMark⟩
  | some (r, digits) =>
    -- The two characters before the digits take one byte each.
    if digits = [] then .error ⟨2, .noDigits⟩
    else if r.capacity < Text.byteCount digits then .error ⟨2 + r.capacity, .tooManyDigits⟩
    else r.readDigits 2 0 digits

end Radix

/-- Whether a value is written as a literal: it starts with a radix mark. -/
def isLiteral (text : List Char) : Bool := (Radix.ofMark? text).isSome

namespace TruthTable

/-- The characters of a table in radix `r`. -/
def literalChars (t : TruthTable) (r : Radix) : List Char :=
  '0' :: r.mark :: r.writeDigits (r.digitCount t.width) t.value

/-- The table as a literal in radix `r`. -/
def literal (t : TruthTable) (r : Radix) : String := String.ofList (t.literalChars r)

/-- The table of the given width that the characters of a literal stand for. -/
def readLiteral (text : List Char) (width : Width) : Except Fault TruthTable :=
  (Radix.readLiteral text).map (ofValue · width)

/-- The table of the given width that a literal stands for. -/
def ofLiteral (text : String) (width : Width) : Except LutError TruthTable :=
  Fault.within .initString text (readLiteral text.toList width)

/-- The table at `count` inputs that a literal stands for; the count is judged first. -/
def ofLiteralAt (text : String) (count : Nat) : Except LutError TruthTable := do
  ofLiteral text (← Width.ofNat count)

/-- A table with its width, as a message shows it. -/
def describe (t : TruthTable) : String :=
  "TruthTable(" ++ t.literal .hex ++ ", " ++ toString t.width.inputs ++ ")"

end TruthTable

end LutLogic
