import LutLogic.Toml.Document
import LutLogic.Toml.Text

/-!
# Reading documents

A document is read line by line into sections, from which `ofText?` builds the table. Arrays and
tables in braces may be nested at most `maxDepth` deep. Readers of lists are given a bound on the
number of items, which the length of the text provides.
-/

namespace LutLogic.Toml

/-- The deepest nesting of arrays and tables in braces. -/
def maxDepth : Nat := 79

/-- A reader of values. -/
abbrev ValueReader := List Char → Option (Value × List Char)

/-- Reads the items of an array up to its closing bracket. -/
def items? (value? : ValueReader) : Nat → List Char → Option (List Value × List Char)
  | 0, _ => none
  | fuel + 1, cs =>
    match skipLines false cs with
    | ']' :: rest => some ([], rest)
    | start => do
      let (item, rest) ← value? start
      match skipLines false rest with
      | ',' :: rest =>
        let (items, rest) ← items? value? fuel rest
        return (item :: items, rest)
      | ']' :: rest => return ([item], rest)
      | _ => none

/-- Reads a key, an equals sign and a value. -/
def assignment? (value? : ValueReader) (cs : List Char) : Option (Assignment × List Char) := do
  let (path, key, rest) ← path? cs
  let rest ← char? '=' rest
  let (value, rest) ← value? (skipSpaces rest)
  return (⟨path, key, value⟩, rest)

/-- Reads one or more assignments up to a closing brace. -/
def fields? (value? : ValueReader) : Nat → List Char → Option (List Assignment × List Char)
  | 0, _ => none
  | fuel + 1, cs => do
    let (a, rest) ← assignment? value? cs
    match skipSpaces rest with
    | ',' :: rest =>
      let (as, rest) ← fields? value? fuel rest
      return (a :: as, rest)
    | '}' :: rest => return ([a], rest)
    | _ => none

/-- Reads the assignments of a table in braces, which may be none. -/
def inlineTable? (value? : ValueReader) (cs : List Char) :
    Option (List Assignment × List Char) :=
  match skipSpaces cs with
  | '}' :: rest => some ([], rest)
  | start => fields? value? cs.length start

/-- Reads a number or a date. A date is tried first, then a float, then an integer. -/
def numeric? : ValueReader := fun cs =>
  match datetime? cs with
  | some rest => some (.datetime, rest)
  | none =>
    match float? cs with
    | some rest => some (.float, rest)
    | none => (integer? cs).map fun (n, rest) => (.integer n, rest)

/-- Reads a value that is not made of other values. -/
def scalar? : ValueReader := fun cs =>
  match cs with
  | '"' :: _ | '\'' :: _ =>
    (string? cs).map fun (s, rest) => (.string (String.ofList s), rest)
  | 't' :: 'r' :: 'u' :: 'e' :: rest => some (.boolean true, rest)
  | 'f' :: 'a' :: 'l' :: 's' :: 'e' :: rest => some (.boolean false, rest)
  | _ => numeric? cs

/-- Reads a value with at most `depth` arrays and tables in braces around one another. -/
def value? : Nat → ValueReader
  | 0, '[' :: _ | 0, '{' :: _ => none
  | depth + 1, '[' :: cs =>
    (items? (value? depth) (cs.length + 1) cs).map fun (items, rest) => (.array items, rest)
  | depth + 1, '{' :: cs => do
    let (as, rest) ← inlineTable? (value? depth) cs
    return (.table .inline (← assignAll .inline [] as), rest)
  | _, cs => scalar? cs

/-- Reads the header of a section, with the end of its line. -/
def header? : List Char → Option (Header × List Char)
  | '[' :: '[' :: cs => do
    let (path, key, rest) ← path? cs
    let rest ← char? ']' rest
    let rest ← char? ']' rest
    return (.element path key, ← lineEnd? rest)
  | '[' :: cs => do
    let (path, key, rest) ← path? cs
    let rest ← char? ']' rest
    return (.table path key, ← lineEnd? rest)
  | _ => none

/-- Reads the lines of a document from inside a section. The assignments of the section are `as`,
the last first. -/
def sections? : Nat → Header → List Assignment → List Char → Option (List Section)
  | 0, _, _, _ => none
  | fuel + 1, header, as, cs =>
    match skipSpaces cs with
    | [] => some [⟨header, as.reverse⟩]
    | '#' :: rest => do sections? fuel header as (← lineEnd? ('#' :: rest))
    | '\n' :: rest => sections? fuel header as rest
    | '\r' :: rest => do sections? fuel header as (← newline? ('\r' :: rest))
    | '[' :: rest => do
      let (next, rest) ← header? ('[' :: rest)
      return ⟨header, as.reverse⟩ :: (← sections? fuel next [] rest)
    | start => do
      let (a, rest) ← assignment? (value? maxDepth) start
      sections? fuel header (a :: as) (← lineEnd? rest)

/-- A text without the byte order mark that it may start with. -/
def skipByteOrderMark : List Char → List Char
  | '\ufeff' :: cs => cs
  | cs => cs

/-- The table that a document describes. -/
def ofText? (text : String) : Option Entries := do
  let cs := skipByteOrderMark text.toList
  build (← sections? (cs.length + 1) .start [] cs)

end LutLogic.Toml
