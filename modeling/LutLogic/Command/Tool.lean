import LutLogic.Command.Arguments

/-!
# The tool

A run of the tool takes the arguments and the configuration file and gives what is printed and the
exit code: 0 with a report, 1 with a message, and 2 if the arguments do not follow the rules. The
configuration is judged before the options and these before the text.
-/

namespace LutLogic.Command

/-- Why a file cannot be read. -/
inductive FileFault where
  /-- There is no such file. -/
  | notFound
  /-- It is a directory. -/
  | isDirectory
  /-- Something else, in words. -/
  | stated (reason : String)
deriving DecidableEq, Repr

/-- The wording of a fault. -/
def FileFault.message : FileFault → String
  | notFound => "No such file or directory (os error 2)"
  | isDirectory => "Is a directory (os error 21)"
  | stated reason => reason

/-- The configuration file of a run. -/
inductive Configuration where
  /-- There is none, and none was asked for. -/
  | absent
  /-- The file with this name cannot be read. -/
  | unreadable (name : String) (fault : FileFault)
  /-- A file with this text. -/
  | file (text : String)
deriving DecidableEq, Repr

/-- What can go wrong in a run. -/
inductive ToolError where
  /-- The configuration file cannot be read. -/
  | unreadable (name : String) (fault : FileFault)
  /-- The configuration is wrong. -/
  | settings (error : SettingsError)
  /-- The options or the text are wrong. -/
  | lut (error : LutError)
deriving DecidableEq

/-- The wording of an error. -/
def ToolError.message : ToolError → String
  | unreadable name fault => "failed to read " ++ name ++ ": " ++ fault.message
  | settings e => e.message
  | lut e => e.message

/-- What a run prints, and its exit code. -/
structure Outcome where
  /-- The exit code. -/
  exitCode : Nat
  /-- What is printed as the result. -/
  output : String
  /-- What is printed as an error. -/
  message : String
deriving DecidableEq, Repr

namespace Configuration

/-- The configuration file among files that are found by name: the one that is asked for, which
has to be there, or the usual one, which need not. -/
def find (wanted : Option String) (read : String → Except FileFault String) : Configuration :=
  match wanted with
  | some name =>
    match read name with
    | .ok text => file text
    | .error fault => unreadable name fault
  | none =>
    match read Settings.fileName with
    | .ok text => file text
    -- Without a file of the usual name there is nothing to read.
    | .error .notFound => absent
    | .error .isDirectory => absent
    | .error fault => unreadable Settings.fileName fault

/-- The settings that a configuration gives. -/
def settings : Configuration → Except ToolError Settings
  | absent => .ok .default
  | unreadable name fault => .error (.unreadable name fault)
  | file text => (Settings.ofText text).mapError .settings

end Configuration

namespace Invocation

/-- The report of a run in its format. -/
def result (i : Invocation) (c : Configuration) : Except ToolError String := do
  let s ← c.settings
  let s ← (i.options.override s).mapError .lut
  let report ← (i.action.report s i.text).mapError .lut
  return report.render s.format

/-- A run with arguments that follow the rules. -/
def outcome (i : Invocation) (c : Configuration) : Outcome :=
  match i.result c with
  | .ok text => ⟨0, text ++ "\n", ""⟩
  | .error e => ⟨1, "", "error: " ++ e.message ++ "\n"⟩

end Invocation

namespace Outcome

/-- A run with arguments that do not follow the rules. -/
def refused : Outcome := ⟨2, "", "error: the arguments are not understood\n"⟩

/-- A run with any arguments, where files are found by name. -/
def ofArguments (args : List String) (read : String → Except FileFault String) : Outcome :=
  match Invocation.ofList? args with
  | none => refused
  | some i => i.outcome (Configuration.find i.options.config read)

end Outcome

end LutLogic.Command
