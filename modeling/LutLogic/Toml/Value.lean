/-!
# Configuration values

The values of a TOML document. Of a float and of a date only the kind is kept. A table remembers
how it came to be, since that decides whether a later part of the document may add to it, and an
array made of `[[name]]` headers is kept apart from an array that is written as a value.
-/

namespace LutLogic.Toml

/-- How a table came to be. -/
inductive Origin where
  /-- By a header of its own; the whole document is such a table. -/
  | header
  /-- By a header of a table inside it. -/
  | implied
  /-- By a dotted key. -/
  | dotted
  /-- As a value in braces. -/
  | inline
deriving DecidableEq, Repr

/-- A value of a document. -/
inductive Value where
  /-- A string. -/
  | string (value : String)
  /-- An integer of 64 bits. -/
  | integer (value : Int)
  /-- A floating-point number. -/
  | float
  /-- A truth value. -/
  | boolean (value : Bool)
  /-- A date, a time or both. -/
  | datetime
  /-- An array that is written as a value. -/
  | array (items : List Value)
  /-- A table with its keys and values. -/
  | table (origin : Origin) (entries : List (String × Value))
  /-- An array of tables with headers. -/
  | tables (items : List Value)

/-- The keys of a table with their values. -/
abbrev Entries := List (String × Value)

/-- Entries with the value of `key` replaced, or added at the end. -/
def Entries.set (key : String) (value : Value) : Entries → Entries
  | [] => [(key, value)]
  | (k, v) :: rest =>
    if k = key then (k, value) :: rest else (k, v) :: Entries.set key value rest

end LutLogic.Toml
