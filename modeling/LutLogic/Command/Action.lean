import LutLogic.Command.Report

/-!
# Actions

Each command takes one text and reports on it: `decode` on a literal, `encode` on an equation,
`inputs` and `reduce` on either, and `attr` on the attribute of a cell. Where the settings ask for
it, contents are reduced before `decode`, `encode` and `attr` report on them.
-/

namespace LutLogic.Command

/-- A command. -/
inductive Action where
  /-- Report on a literal. -/
  | decode
  /-- Report on an equation. -/
  | encode
  /-- Report on the pins of a literal or an equation. -/
  | inputs
  /-- Report on the reduction of a literal or an equation. -/
  | reduce
  /-- Report on the attribute of a cell. -/
  | attr
deriving DecidableEq, Repr

namespace Action

/-- The action of a name. -/
def ofName? (name : String) : Option Action :=
  if name = "decode" then some decode
  else if name = "encode" then some encode
  else if name = "inputs" then some inputs
  else if name = "reduce" then some reduce
  else if name = "attr" then some attr
  else none

/-- Contents as the settings want them shown. -/
def shown (s : Settings) (c : Contents) : Contents := if s.autoReduce then c.reduce else c

/-- The report on a literal. -/
def decodeReport (s : Settings) (text : String) : Except LutError ContentsReport := do
  return .ofContents (shown s (← Contents.ofLiteral text s.width.inputs)) s.radix

/-- The report on an equation. -/
def encodeReport (s : Settings) (text : String) : Except LutError ContentsReport := do
  return .ofContents (shown s (← Contents.ofEquationText text s.width.inputs)) s.radix

/-- The report on the pins of a literal or an equation. -/
def inputsReport (s : Settings) (text : String) : Except LutError InputsReport := do
  return .ofContents (← Contents.ofText text s.width)

/-- The report on the reduction of a literal or an equation. -/
def reductionReport (s : Settings) (text : String) : Except LutError ReductionReport := do
  return .ofContents (← Contents.ofText text s.width) s.radix

/-- The report on the attribute of a cell. -/
def cellReport (s : Settings) (text : String) : Except LutError CellReport := do
  let c ← Cell.ofAttribute text s.width
  return .ofCell { c with contents := shown s c.contents } s.radix

/-- What an action reports on a text. -/
def report (a : Action) (s : Settings) (text : String) : Except LutError Report :=
  match a with
  | decode => (decodeReport s text).map .contents
  | encode => (encodeReport s text).map .contents
  | inputs => (inputsReport s text).map .inputs
  | reduce => (reductionReport s text).map .reduction
  | attr => (cellReport s text).map .cell

end Action

end LutLogic.Command
