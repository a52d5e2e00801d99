import LutLogic.Command.Action

/-!
# Command lines

A command line names an action and the text that it reports on. Options may stand before or after
the name of the action. A long option takes its value after an equals sign or as the next
argument, a short one also directly; short options may be joined. A value that is an argument of
its own starts with a dash only if it is a dash alone. After `--` no argument is an option. An
option may be given once before and once after the name of the action, and the later one counts.
-/

namespace LutLogic.Command

/-- An option of the command line. -/
inductive Flag where
  /-- Log errors only. -/
  | quiet
  /-- Log details. -/
  | verbose
  /-- The configuration file. -/
  | config
  /-- The width of tables. -/
  | inputs
  /-- The format of reports. -/
  | format
  /-- The radix of literals. -/
  | radix
deriving DecidableEq, Repr

/-- An option with its value. -/
inductive Choice where
  /-- Log errors only. -/
  | quiet
  /-- Log details. -/
  | verbose
  /-- The configuration file. -/
  | config (name : String)
  /-- The width of tables. -/
  | inputs (count : Nat)
  /-- The format of reports. -/
  | format (format : Format)
  /-- The radix of literals. -/
  | radix (radix : Radix)
deriving DecidableEq, Repr

/-- The option of a choice. -/
def Choice.flag : Choice → Flag
  | quiet => .quiet
  | verbose => .verbose
  | config _ => .config
  | inputs _ => .inputs
  | format _ => .format
  | radix _ => .radix

/-- The number of 32 bits that decimal digits with an optional sign stand for. -/
def readCount? (text : String) : Option Nat :=
  let (negative, digits) :=
    match text.toList with
    | '-' :: ds => (true, ds)
    | '+' :: ds => (false, ds)
    | ds => (false, ds)
  if digits = [] ∨ digits.any (!Char.isDigit ·) then none
  else
    let n := digits.foldl (fun n d => 10 * n + (d.toNat - 48)) 0
    if (negative ∧ n ≠ 0) ∨ 0x100000000 ≤ n then none else some n

namespace Flag

/-- The option of a long name. -/
def ofLong? (name : String) : Option Flag :=
  if name = "quiet" then some quiet
  else if name = "verbose" then some verbose
  else if name = "config" then some config
  else if name = "inputs" then some inputs
  else if name = "format" then some format
  else if name = "radix" then some radix
  else none

/-- The option of a letter. -/
def ofShort? (letter : Char) : Option Flag :=
  match letter with
  | 'q' => some quiet
  | 'v' => some verbose
  | 'n' => some inputs
  | 'f' => some format
  | _ => none

/-- The choice that an option makes by itself; none if the option takes a value. -/
def alone? : Flag → Option Choice
  | quiet => some .quiet
  | verbose => some .verbose
  | _ => none

/-- The choice that an option makes with a value. -/
def withValue? (flag : Flag) (value : String) : Option Choice :=
  match flag with
  | quiet | verbose => none
  | config => some (.config value)
  | inputs => (readCount? value).map .inputs
  | format => (Format.ofName? value).map .format
  | radix => (Radix.ofName? value).map .radix

end Flag

/-- What one argument with options says: the choices it makes, and an option that still waits for
its value in the next argument. -/
structure OptionGroup where
  /-- The choices, in order. -/
  choices : List Choice
  /-- The option that waits for its value. -/
  waiting : Option Flag
deriving DecidableEq, Repr

namespace OptionGroup

/-- Reads an argument that starts with two dashes, without them. -/
def ofLong? (text : List Char) : Option OptionGroup :=
  match Text.splitAtFirst '=' text with
  | some (name, value) => do
    let flag ← Flag.ofLong? (String.ofList name)
    return ⟨[← flag.withValue? (String.ofList value)], none⟩
  | none => do
    let flag ← Flag.ofLong? (String.ofList text)
    match flag.alone? with
    | some choice => return ⟨[choice], none⟩
    | none => return ⟨[], some flag⟩

/-- Reads an argument that starts with one dash, without it. The value of an option may follow its
letter, with or without an equals sign. -/
def ofShort? : List Char → Option OptionGroup
  | [] => some ⟨[], none⟩
  | letter :: rest => do
    let flag ← Flag.ofShort? letter
    match flag.alone?, rest with
    -- An option without a value may be joined with further options.
    | some choice, _ =>
      let r ← ofShort? rest
      return ⟨choice :: r.choices, r.waiting⟩
    | none, [] => return ⟨[], some flag⟩
    | none, '=' :: value => return ⟨[← flag.withValue? (String.ofList value)], none⟩
    | none, value => return ⟨[← flag.withValue? (String.ofList value)], none⟩

end OptionGroup

/-- The kinds of arguments. -/
inductive Argument where
  /-- The mark `--`, after which no argument is an option. -/
  | finish
  /-- An argument with options; none if it does not parse. -/
  | options (group : Option OptionGroup)
  /-- Any other argument. -/
  | plain (text : String)
deriving DecidableEq, Repr

namespace Argument

/-- The kind of an argument. A dash alone is no option. -/
def ofText (text : String) : Argument :=
  match text.toList with
  | ['-', '-'] => finish
  | '-' :: '-' :: rest => options (OptionGroup.ofLong? rest)
  | ['-'] => plain text
  | '-' :: rest => options (OptionGroup.ofShort? rest)
  | _ => plain text

/-- The value that an argument is for the option before it. -/
def value? (text : String) : Option String :=
  match ofText text with
  | plain value => some value
  | _ => none

end Argument

/-- What the arguments from one place on say. -/
structure Arguments where
  /-- The choices, in order. -/
  choices : List Choice
  /-- The other arguments, in order. -/
  plain : List String
deriving DecidableEq, Repr

namespace Arguments

/-- Arguments with more choices before them. -/
def addChoices (choices : List Choice) (a : Arguments) : Arguments :=
  { a with choices := choices ++ a.choices }

/-- Reads the arguments after the name of an action. -/
def ofList? : List String → Option Arguments
  | [] => some ⟨[], []⟩
  | text :: rest =>
    match Argument.ofText text with
    | .finish => some ⟨[], rest⟩
    | .plain value => (ofList? rest).map fun a => { a with plain := value :: a.plain }
    | .options none => none
    | .options (some ⟨choices, none⟩) => (ofList? rest).map (addChoices choices)
    | .options (some ⟨choices, some flag⟩) =>
      match rest with
      | [] => none
      | value :: rest => do
        let choice ← flag.withValue? (← Argument.value? value)
        return (← ofList? rest).addChoices (choices ++ [choice])

end Arguments

/-- What the options of a command line choose. -/
structure Options where
  /-- The configuration file. -/
  config : Option String
  /-- The width of tables. -/
  inputs : Option Nat
  /-- The format of reports. -/
  format : Option Format
  /-- The radix of literals. -/
  radix : Option Radix
deriving DecidableEq, Repr

namespace Options

/-- No choice. -/
def empty : Options := ⟨none, none, none, none⟩

/-- Options after one more choice. -/
def choose (o : Options) : Choice → Options
  | .quiet | .verbose => o
  | .config name => { o with config := some name }
  | .inputs count => { o with inputs := some count }
  | .format f => { o with format := some f }
  | .radix r => { o with radix := some r }

/-- The settings with what the options choose instead. -/
def override (o : Options) (s : Settings) : Except LutError Settings := do
  let width ←
    match o.inputs with
    | some count => Width.ofNat count
    | none => .ok s.width
  return { s with
    width := width, format := o.format.getD s.format, radix := o.radix.getD s.radix }

end Options

/-- A command line that has been understood. -/
structure Invocation where
  /-- The options. -/
  options : Options
  /-- The action. -/
  action : Action
  /-- The text that the action reports on. -/
  text : String
deriving DecidableEq, Repr

namespace Invocation

/-- Whether no option is chosen twice. -/
def distinct (choices : List Choice) : Bool := decide (choices.map Choice.flag).Nodup

/-- Reads the arguments after the name of an action, with the choices made before it. -/
def ofAction? (action : Action) (before : List Choice) (rest : List String) :
    Option Invocation := do
  let a ← Arguments.ofList? rest
  match a.plain with
  | [text] =>
    if distinct before && distinct a.choices then
      return ⟨(before ++ a.choices).foldl Options.choose .empty, action, text⟩
    else none
  | _ => none

/-- Reads arguments up to the name of the action, with the choices made so far. -/
def ofListAfter? (before : List Choice) : List String → Option Invocation
  | [] => none
  | text :: rest =>
    match Argument.ofText text with
    -- After the mark no argument names an action.
    | .finish => none
    | .plain name => do ofAction? (← Action.ofName? name) before rest
    | .options none => none
    | .options (some ⟨choices, none⟩) => ofListAfter? (before ++ choices) rest
    | .options (some ⟨choices, some flag⟩) =>
      match rest with
      | [] => none
      | value :: rest => do
        let choice ← flag.withValue? (← Argument.value? value)
        ofListAfter? (before ++ choices ++ [choice]) rest

/-- Reads a command line; none if it does not follow the rules. -/
def ofList? (args : List String) : Option Invocation := ofListAfter? [] args

end Invocation

end LutLogic.Command
