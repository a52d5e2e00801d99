import LutLogic.Cell.Basic

/-!
# Cells as attributes

A cell is written `#MODE:PIN=VALUE`. The value of a static source is its constant, that of another
cell used for logic its equation, and that of a memory its table in hexadecimal. To be read, an
attribute is cut into its parts. The value may be a literal or an equation in every mode and goes to
the parser and the constructor of its kind, and what the parser finds wrong is reported at its place
in the whole attribute.
-/

namespace LutLogic

/-- The characters of an output pin: letters and digits of ASCII, and the underscore. -/
def isPinChar (c : Char) : Bool := c.isAlphanum || c == '_'

/-- An error of a value, as an error of a text in which `base` bytes stand before the value. -/
def ParseError.relocate (base : Nat) (text : String) (e : ParseError) : ParseError :=
  ofFault .cell text ⟨base + e.offset, e.cause⟩

/-- An error of a value, as an error of a text in which `base` bytes stand before the value. Only
what is wrong with the value as a text has a place. -/
def LutError.relocate (base : Nat) (text : String) : LutError → LutError
  | .parse e => .parse (e.relocate base text)
  | error => error

namespace Cell

/-- The value of a cell in an attribute. -/
def valueText (c : Cell) : String :=
  if c.isSource true then "1"
  else if c.isSource false then "0"
  else if c.mode = .lut then c.contents.equation.text
  else c.contents.table.literal .hex

/-- The attribute with a given value. -/
def textWith (c : Cell) (value : String) : String :=
  "#" ++ c.mode.keyword ++ ":" ++ c.pin.getD "" ++ "=" ++ value

/-- The attribute of a cell. -/
def attributeText (c : Cell) : String := c.textWith c.valueText

/-- A cell as a message shows it: in every mode by its equation. -/
def describe (c : Cell) : String := c.textWith c.contents.text

/-- Reads the name of an output pin. -/
def readPin (text : List Char) : Except Fault String :=
  if text = [] then .error ⟨0, .noPinName⟩
  else if text.all isPinChar then .ok (String.ofList text)
  else .error ⟨Text.byteCount (text.takeWhile isPinChar), .badPinCharacter⟩

/-- The parts of an attribute. -/
structure Parts where
  /-- What the table is used as. -/
  mode : Mode
  /-- The output pin. -/
  pin : String
  /-- The number of bytes before the value. -/
  valueStart : Nat
  /-- The value, which is not read yet. -/
  value : List Char

/-- Cuts an attribute into its parts. They are read in order: the mark, the mode and the pin. -/
def readParts (text : List Char) : Except Fault Parts :=
  match text with
  | '#' :: body =>
    match Text.splitAtFirst ':' body with
    | none => .error ⟨Text.byteCount text, .noColon⟩
    | some (modeText, rest) => do
      -- One byte stands before the mode, and one more between the mode and the pin.
      let mode ← Fault.located 1 (Mode.read modeText)
      let pinStart := 2 + Text.byteCount modeText
      match Text.splitAtFirst '=' rest with
      | none => .error ⟨Text.byteCount text, .noEquals⟩
      | some (pinText, value) => do
        let pin ← Fault.located pinStart (readPin pinText)
        return ⟨mode, pin, pinStart + Text.byteCount pinText + 1, value⟩
  | _ => .error ⟨0, .noHash⟩

/-- The contents at `count` pins that a value stands for, made of its table or its equation by the
constructors that judge the count and the pins. Errors of the parsers are relocated into `text`, in
which `base` bytes stand before the value. -/
def contentsWithin (text value : String) (base count : Nat) : Except LutError Contents :=
  if isLiteral value.toList then do
    let t ← (TruthTable.ofLiteralAt value count).mapError (LutError.relocate base text)
    Contents.ofTableAt t count
  else do
    let e ← (Equation.ofText value).mapError (LutError.relocate base text)
    Contents.ofEquationAt e count

/-- The cell that an attribute describes, at the given width. -/
def ofAttribute (text : String) (width : Width) : Except LutError Cell := do
  let parts ← Fault.within .cell text (readParts text.toList)
  let contents ← contentsWithin text (String.ofList parts.value) parts.valueStart width.inputs
  return ⟨parts.mode, some parts.pin, contents⟩

/-- The cell that an attribute describes, at `count` pins. The count is judged first. -/
def ofAttributeAt (text : String) (count : Nat) : Except LutError Cell := do
  ofAttribute text (← Width.ofNat count)

end Cell

end LutLogic
