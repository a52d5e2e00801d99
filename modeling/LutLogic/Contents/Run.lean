import LutLogic.Contents.Basic

/-!
# Runs on contents

Contents live through changes and observations in any order. `Contents.change` makes one change in
place and goes on with what is there afterwards, be it refused or not. `Contents.observe` makes one
observation, which may leave a form remembered that was not known before. `Contents.step` is either
of the two and `Contents.run` a list of them with their outcomes.
-/

namespace LutLogic

namespace Contents

/-- A change of the contents. -/
inductive Change where
  /-- Write an equation. -/
  | equation (equation : Equation)
  /-- Write a table. -/
  | table (table : TruthTable)
  /-- Change the number of pins. -/
  | width (count : Nat)
  /-- Drop the pins that do not matter. -/
  | reduce
  /-- Write a constant. -/
  | constant (output : Bool)
deriving DecidableEq

/-- A question about the contents. -/
inductive Query where
  /-- The equation. -/
  | equation
  /-- The table. -/
  | table
  /-- The pins that the equation mentions. -/
  | used
  /-- The pins that matter. -/
  | required
  /-- The text of the contents. -/
  | text
  /-- Whether other contents have the same table. -/
  | same (other : Contents)
deriving DecidableEq

/-- The answer to a question. -/
inductive Reply where
  /-- An equation. -/
  | equation (equation : Equation)
  /-- A table. -/
  | table (table : TruthTable)
  /-- A set of pins, in ascending order. -/
  | pins (pins : List Nat)
  /-- A text. -/
  | text (text : String)
  /-- A yes or no. -/
  | verdict (verdict : Bool)
deriving DecidableEq

/-- A change as it is made in place. -/
def Change.update : Change → Update
  | .equation e => setEquationInPlace e
  | .table t => modify (setTable t)
  | .width count => setWidthInPlace count
  | .reduce => modify Contents.reduce
  | .constant output => modify (setConstant output)

/-- Makes a change, and reports it if it is refused. The contents are what the change has left. -/
def change (c : Contents) (r : Change) : Option LutError × Contents :=
  match r.update.run c with
  | .ok () d => (none, d)
  | .error refusal d => (some refusal, d)

/-- The answer to a question. -/
def reply (c : Contents) : Query → Reply
  | .equation => .equation c.equation
  | .table => .table c.table
  | .used => .pins c.usedInputs
  | .required => .pins c.requiredInputs
  | .text => .text c.text
  | .same other => .verdict (c.sameFunction other)

/-- The contents after a question, with the form that it needed remembered. -/
def afterQuery (c : Contents) : Query → Contents
  | .equation | .used | .text => c.rememberEquation
  | .table | .required | .same _ => c.rememberTable

/-- Asks a question. -/
def observe (c : Contents) (q : Query) : Reply × Contents := (c.reply q, c.afterQuery q)

/-- A step of a run. -/
inductive Step where
  /-- A change. -/
  | change (change : Change)
  /-- A question. -/
  | query (query : Query)
deriving DecidableEq

/-- What a step gives. -/
inductive StepOutcome where
  /-- A change was made, or refused for a reason. -/
  | changed (refusal : Option LutError)
  /-- A question was answered. -/
  | replied (reply : Reply)
deriving DecidableEq

/-- Makes one step. -/
def step (c : Contents) : Step → StepOutcome × Contents
  | .change r => let (refusal, d) := c.change r; (.changed refusal, d)
  | .query q => let (reply, d) := c.observe q; (.replied reply, d)

/-- Makes the steps of a list one after the other. -/
def run (c : Contents) : List Step → List StepOutcome × Contents
  | [] => ([], c)
  | s :: rest =>
    let (outcome, d) := c.step s
    let (outcomes, last) := d.run rest
    (outcome :: outcomes, last)

end Contents

end LutLogic
