import LutLogic.Toml.Parser
import LutLogic.TruthTable.Literal

/-!
# Settings

How the tool works is set in a configuration file: the width of tables, the radix of literals, the
format of reports, and whether contents are reduced before they are shown. A setting that the file
does not give has its default, and keys that are no setting are passed over. A section may be
given as a table, or as an array of its settings in order.
-/

namespace LutLogic

/-- The format of a report. -/
inductive Format where
  /-- Lines of text. -/
  | text
  /-- A JSON object. -/
  | json
deriving DecidableEq, Repr

/-- The name of a format. -/
def Format.name : Format → String
  | text => "text"
  | json => "json"

/-- The format of a name. -/
def Format.ofName? (name : String) : Option Format :=
  if name = "text" then some text else if name = "json" then some json else none

/-- The name of a radix. -/
def Radix.name : Radix → String
  | hex => "hex"
  | binary => "binary"

/-- The radix of a name. -/
def Radix.ofName? (name : String) : Option Radix :=
  if name = "hex" then some hex else if name = "binary" then some binary else none

/-- How the tool works. -/
structure Settings where
  /-- The width of tables. -/
  width : Width
  /-- The radix of literals. -/
  radix : Radix
  /-- The format of reports. -/
  format : Format
  /-- Whether contents are reduced before they are shown. -/
  autoReduce : Bool
deriving DecidableEq

/-- What is wrong with a configuration. -/
inductive SettingsError where
  /-- The text is no document, or a setting is of the wrong kind. -/
  | malformed
  /-- The number of inputs is no width. -/
  | width (error : LutError)
deriving DecidableEq

/-- The wording of an error in a configuration. What a malformed text consists of is not told. -/
def SettingsError.message : SettingsError → String
  | malformed => "failed to parse configuration"
  | width e => "invalid lut.num_inputs: " ++ e.message

namespace Settings

/-- The settings without a configuration file. -/
def default : Settings := ⟨.six, .hex, .text, false⟩

/-- The name of the configuration file that is read if it is there. -/
def fileName : String := "lutforge.toml"

/-- The setting at a place of a section, if the section gives it: by its name in a table, or by
its position in an array. A date counts as a table without settings. -/
def entry? (part : Toml.Value) (position : Nat) (name : String) :
    Option (Option Toml.Value) :=
  match part with
  | .table _ entries => some (entries.lookup name)
  | .array items | .tables items => some items[position]?
  | .datetime => some none
  | _ => none

/-- The setting of a section of a document, with its default if it is not given. -/
def read {α : Type} (document : Toml.Entries) (sectionName : String) (position : Nat)
    (name : String) (default : α) (ofValue? : Toml.Value → Option α) : Option α :=
  match document.lookup sectionName with
  | none => some default
  | some part =>
    match entry? part position name with
    | none => none
    | some none => some default
    | some (some value) => ofValue? value

/-- The number of 32 bits that a value is. -/
def word? : Toml.Value → Option Nat
  | .integer (.ofNat n) => if n < 0x100000000 then some n else none
  | _ => none

/-- The truth value that a value is. -/
def bool? : Toml.Value → Option Bool
  | .boolean b => some b
  | _ => none

/-- The name of an alternative: a string, or a table with the name as its only key and nothing
below it. -/
def choice? : Toml.Value → Option String
  | .string name => some name
  | .table _ [(name, .table _ [])] => some name
  | .table _ [(name, .array [])] => some name
  | _ => none

/-- The settings that a configuration gives. -/
def ofText (text : String) : Except SettingsError Settings :=
  let settings? : Option (Nat × Radix × Format × Bool) := do
    let document ← Toml.ofText? text
    let inputs ← read document "lut" 0 "num_inputs" maxInputs word?
    let radix ← read document "output" 0 "radix" .hex fun v => (choice? v).bind Radix.ofName?
    let format ← read document "output" 1 "format" .text fun v => (choice? v).bind Format.ofName?
    let auto ← read document "reduce" 0 "auto" false bool?
    return (inputs, radix, format, auto)
  match settings? with
  | none => .error .malformed
  | some (inputs, radix, format, auto) =>
    match Width.ofNat inputs with
    | .ok width => .ok ⟨width, radix, format, auto⟩
    | .error e => .error (.width e)

end Settings

end LutLogic
