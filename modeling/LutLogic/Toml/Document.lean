import LutLogic.Toml.Value

/-!
# Documents

A document is a list of sections, each a header and its assignments; the first has no header.
`build` makes the table that a document describes, and fails where it defines something twice.

A dotted key makes the tables on its way and may pass only tables that a header has not defined;
the table that it ends in must itself come from dotted keys. A header may pass any table and the
last element of an array of tables. A table that only headers of inner tables have implied may
still get a header of its own.
-/

namespace LutLogic.Toml

/-- The header of a section. -/
inductive Header where
  /-- No header: the start of the document. -/
  | start
  /-- A table `[path.key]`. -/
  | table (path : List String) (key : String)
  /-- An element `[[path.key]]` of an array of tables. -/
  | element (path : List String) (key : String)
deriving DecidableEq, Repr

/-- An assignment `path.key = value`. -/
structure Assignment where
  /-- The parts of the key before the last. -/
  path : List String
  /-- The last part of the key. -/
  key : String
  /-- The value. -/
  value : Value

/-- A header with the assignments below it. -/
structure Section where
  /-- The header. -/
  header : Header
  /-- The assignments, in order. -/
  assignments : List Assignment

/-- Changes the table that `path` leads to from a table with the given origin and entries. Tables
that are missing on the way come to be by `made`, which is also the reason for going there: a
dotted key may not pass a table that has a header. -/
def changeAt (made : Origin) (change : Origin → Entries → Option Entries) :
    List String → Origin → Entries → Option Entries
  | [], origin, entries => change origin entries
  | key :: path, _, entries =>
    match entries.lookup key with
    | none => do
      return entries.set key (.table made (← changeAt made change path made []))
    -- A table in braces is complete.
    | some (.table .inline _) => none
    | some (.table origin inner) =>
      if made = .dotted ∧ origin = .header then none
      else do return entries.set key (.table origin (← changeAt made change path origin inner))
    | some (.tables items) =>
      -- The way goes on in the element that was added last.
      match items.getLast? with
      | some (.table origin inner) => do
        let last := Value.table origin (← changeAt made change path origin inner)
        return entries.set key (.tables (items.dropLast ++ [last]))
      | _ => none
    | some _ => none

/-- Adds an assignment to a table. -/
def assign (origin : Origin) (entries : Entries) (a : Assignment) : Option Entries :=
  changeAt .dotted (fun last inner =>
    -- A plain key belongs to the section itself, a dotted one to a table of dotted keys.
    if decide (last = .dotted) = a.path.isEmpty then none
    else if (inner.lookup a.key).isSome then none
    else some (inner.set a.key a.value)) a.path origin entries

/-- Adds the assignments of a section to a table. -/
def assignAll (origin : Origin) (entries : Entries) (as : List Assignment) : Option Entries :=
  as.foldlM (assign origin) entries

/-- Adds a section to the table of the whole document. -/
def addSection (root : Entries) (s : Section) : Option Entries :=
  match s.header with
  | .start => assignAll .header root s.assignments
  | .table path key =>
    changeAt .implied (fun _ inner =>
      match inner.lookup key with
      | none => do return inner.set key (.table .header (← assignAll .header [] s.assignments))
      | some (.table .implied old) => do
        return inner.set key (.table .header (← assignAll .header old s.assignments))
      | some _ => none) path .header root
  | .element path key =>
    changeAt .implied (fun _ inner =>
      match inner.lookup key with
      | none => do
        return inner.set key (.tables [.table .header (← assignAll .header [] s.assignments)])
      | some (.tables items) => do
        let element := Value.table .header (← assignAll .header [] s.assignments)
        return inner.set key (.tables (items ++ [element]))
      | some _ => none) path .header root

/-- The table that a document describes. -/
def build (sections : List Section) : Option Entries := sections.foldlM addSection []

end LutLogic.Toml
