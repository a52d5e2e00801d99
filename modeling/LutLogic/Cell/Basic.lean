import LutLogic.Contents.Basic

/-!
# Cells

A cell is a look-up table at its place in a design: what it is used as, the output pin that it
drives, and its contents. A cell used for logic whose equation is a constant is a static source of
that constant. The test looks at the equation, not at the table: `(A1+~A1)` is no static source.
-/

namespace LutLogic

/-- What a look-up table is used as. -/
inductive Mode where
  /-- Combinational logic. -/
  | lut
  /-- Distributed memory. -/
  | ram
  /-- Read-only memory. -/
  | rom
deriving DecidableEq, Repr

namespace Mode

/-- The keyword of a mode. -/
def keyword : Mode → String
  | lut => "LUT"
  | ram => "RAM"
  | rom => "ROM"

/-- The mode of a keyword. -/
def ofKeyword? (text : String) : Option Mode :=
  if text = "LUT" then some lut
  else if text = "RAM" then some ram
  else if text = "ROM" then some rom
  else none

/-- Reads the keyword of a mode. -/
def read (text : List Char) : Except Fault Mode :=
  match ofKeyword? (String.ofList text) with
  | some m => .ok m
  | none => .error ⟨0, .unknownMode⟩

/-- The mode that a text stands for. -/
def ofText (text : String) : Except LutError Mode := Fault.within .cell text (read text.toList)

/-- A mode is the one of a text exactly when the text is its keyword. -/
theorem ofKeyword?_eq_some_iff {text : String} {m : Mode} :
    ofKeyword? text = some m ↔ text = m.keyword := by
  constructor
  · intro h
    unfold ofKeyword? at h
    split at h
    · cases h; assumption
    · split at h
      · cases h; assumption
      · split at h
        · cases h; assumption
        · cases h
  · rintro rfl
    cases m <;> decide

end Mode

/-- A look-up table in a design. -/
structure Cell where
  /-- What the table is used as. -/
  mode : Mode
  /-- The output pin that it drives. -/
  pin : Option String
  /-- The function that it is programmed with. -/
  contents : Contents
deriving DecidableEq

namespace Cell

/-- A cell from parts that may not have been given. The output pin is optional; of the others the
first one that is missing is reported. -/
def ofParts (mode : Option Mode) (pin : Option String) (contents : Option Contents) :
    Except LutError Cell :=
  match mode, contents with
  | none, _ => .error (.missing .operatingMode)
  | _, none => .error (.missing .contents)
  | some m, some c => .ok ⟨m, pin, c⟩

/-- Whether two cells agree in mode and pin and have the same table. -/
def sameFunction (c d : Cell) : Bool :=
  c.mode == d.mode && c.pin == d.pin && c.contents.sameFunction d.contents

/-- Whether a cell is used for logic and its equation is the constant `output`. -/
def isSource (output : Bool) (c : Cell) : Bool :=
  c.mode == .lut && c.contents.equation.constant? == some output

/-- Whether a cell is a static source of either constant. -/
def isStaticSource (c : Cell) : Bool := c.isSource true || c.isSource false

/-- Makes a cell a static source. -/
def setSource (output : Bool) (c : Cell) : Cell :=
  { c with mode := .lut, contents := c.contents.setConstant output }

end Cell

end LutLogic
