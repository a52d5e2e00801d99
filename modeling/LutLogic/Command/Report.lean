import LutLogic.Cell.Attribute
import LutLogic.Json.Printer
import LutLogic.Settings

/-!
# Reports

What a command finds out is a report, which is written as lines of text or as a JSON object. The
reports are the two forms of contents, the pins that contents mention and require, contents before
and after a reduction with the moves of the pins, and a cell with its contents.
-/

namespace LutLogic.Command

/-- Both forms of contents. -/
structure ContentsReport where
  /-- The number of pins. -/
  inputs : Nat
  /-- The equation. -/
  equation : String
  /-- The table as a literal. -/
  init : String
deriving DecidableEq, Repr

namespace ContentsReport

/-- The report on contents, with the literal in radix `r`. -/
def ofContents (c : Contents) (r : Radix) : ContentsReport where
  inputs := c.width.inputs
  equation := c.equation.text
  init := c.table.literal r

/-- A report on contents as text. -/
def text (r : ContentsReport) : String :=
  "equation:   " ++ r.equation ++ "\ninit:       " ++ r.init ++ "\nnum_inputs: "
    ++ toString r.inputs

/-- A report on contents as JSON. -/
def json (r : ContentsReport) : Json :=
  .object [("num_inputs", .nat r.inputs), ("equation", .string r.equation),
    ("init", .string r.init)]

end ContentsReport

/-- The pins that contents mention and require. -/
structure InputsReport where
  /-- The equation. -/
  equation : String
  /-- The pins that the equation mentions. -/
  used : List Nat
  /-- The pins that matter. -/
  required : List Nat
deriving DecidableEq, Repr

namespace InputsReport

/-- The report on the pins of contents. -/
def ofContents (c : Contents) : InputsReport where
  equation := c.equation.text
  used := c.usedInputs
  required := c.requiredInputs

/-- Pins by name, and a dash if there are none. -/
def pinsText (pins : List Nat) : String :=
  if pins = [] then "-" else " ".intercalate (pins.map fun p => String.ofList (pinName p))

/-- A report on pins as text. -/
def text (r : InputsReport) : String :=
  "equation: " ++ r.equation ++ "\nused:     " ++ pinsText r.used ++ "\nrequired: "
    ++ pinsText r.required

/-- A report on pins as JSON. -/
def json (r : InputsReport) : Json :=
  .object [("equation", .string r.equation), ("used", .array (r.used.map .nat)),
    ("required", .array (r.required.map .nat))]

end InputsReport

/-- Contents before and after a reduction. -/
structure ReductionReport where
  /-- The contents before. -/
  before : ContentsReport
  /-- The pins that moved, with their old and new numbers. -/
  moves : PinMap
  /-- The contents after. -/
  after : ContentsReport
deriving DecidableEq, Repr

namespace ReductionReport

/-- The report on the reduction of contents. -/
def ofContents (c : Contents) (r : Radix) : ReductionReport where
  before := .ofContents c r
  moves := (Contents.rankMap c.requiredInputs).filter fun (old, new) => old != new
  after := .ofContents c.reduce r

/-- The moves of pins as text, and a dash if there are none. -/
def movesText (moves : PinMap) : String :=
  if moves = [] then "-"
  else " ".intercalate (moves.map fun (old, new) =>
    String.ofList (pinName old) ++ "->" ++ String.ofList (pinName new))

/-- A report on a reduction as text. -/
def text (r : ReductionReport) : String :=
  "before: " ++ r.before.equation ++ " (" ++ r.before.init ++ ")\nmoved:  " ++ movesText r.moves
    ++ "\nafter:  " ++ r.after.equation ++ " (" ++ r.after.init ++ ")"

/-- A report on a reduction as JSON. -/
def json (r : ReductionReport) : Json :=
  .object [("before", r.before.json),
    ("mapping", .object (r.moves.map fun (old, new) =>
      (String.ofList (pinName old), .string (String.ofList (pinName new))))),
    ("after", r.after.json)]

end ReductionReport

/-- A cell with its contents. -/
structure CellReport where
  /-- The attribute of the cell. -/
  written : String
  /-- The keyword of the mode. -/
  mode : String
  /-- The output pin. -/
  pin : Option String
  /-- The constant that the cell is a static source of. -/
  source : Option Bool
  /-- The contents. -/
  contents : ContentsReport
deriving DecidableEq, Repr

namespace CellReport

/-- The report on a cell. -/
def ofCell (c : Cell) (r : Radix) : CellReport where
  written := c.attributeText
  mode := c.mode.keyword
  pin := c.pin
  source := if c.isSource true then some true else if c.isSource false then some false else none
  contents := .ofContents c.contents r

/-- The name of a static source. -/
def sourceName (output : Bool) : String := if output then "vcc" else "gnd"

/-- A report on a cell as text. -/
def text (r : CellReport) : String :=
  match r.source with
  | some output => r.written ++ "  [" ++ sourceName output ++ "]"
  | none => r.written

/-- A report on a cell as JSON. -/
def json (r : CellReport) : Json :=
  .object [("attribute", .string r.written), ("mode", .string r.mode),
    ("output_pin", (r.pin.map Json.string).getD .null),
    ("static_source", (r.source.map fun output => Json.string (sourceName output)).getD .null),
    ("contents", r.contents.json)]

end CellReport

/-- What a command finds out. -/
inductive Report where
  /-- Both forms of contents. -/
  | contents (report : ContentsReport)
  /-- The pins of contents. -/
  | inputs (report : InputsReport)
  /-- A reduction of contents. -/
  | reduction (report : ReductionReport)
  /-- A cell. -/
  | cell (report : CellReport)
deriving DecidableEq, Repr

namespace Report

/-- A report as text. -/
def text : Report → String
  | contents r => r.text
  | inputs r => r.text
  | reduction r => r.text
  | cell r => r.text

/-- A report as JSON. -/
def json : Report → Json
  | contents r => r.json
  | inputs r => r.json
  | reduction r => r.json
  | cell r => r.json

/-- A report in a format. -/
def render (r : Report) : Format → String
  | .text => r.text
  | .json => r.json.text

end Report

end LutLogic.Command
