/-!
# JSON values

The values of JSON, with the fields of an object in the order in which they are written. A number
keeps its decimal places, so that `4` and `4.0` differ: only the first is an integer.

`Json.record?` reads the fields of a record, which is an object with those fields or an array of
their values in order, and `Json.choice?` the name of one of several alternatives.
-/

namespace LutLogic

/-- A JSON value. -/
inductive Json where
  /-- The null value. -/
  | null
  /-- A truth value. -/
  | bool (value : Bool)
  /-- The number `mantissa / 10 ^ places`, written with that many decimal places. -/
  | number (mantissa : Int) (places : Nat)
  /-- A string. -/
  | string (value : String)
  /-- An array. -/
  | array (items : List Json)
  /-- An object, as names and values. -/
  | object (fields : List (String × Json))
deriving Inhabited

namespace Json

/-- A natural number. -/
def nat (n : Nat) : Json := number n 0

/-- The integer that a value is, if it is one without decimal places. -/
def int? : Json → Option Int
  | number mantissa 0 => some mantissa
  | _ => none

/-- The number of 32 bits that a value is. -/
def word? (j : Json) : Option Nat :=
  match j.int? with
  | some (.ofNat n) => if n < 0x100000000 then some n else none
  | _ => none

/-- The truth value that a value is. -/
def bool? : Json → Option Bool
  | bool value => some value
  | _ => none

/-- The string that a value is. -/
def string? : Json → Option String
  | string value => some value
  | _ => none

/-- The values of a record with the given field names, which is an object that has these fields and
possibly others, or an array of exactly these values. -/
def record? (names : List String) : Json → Option (List Json)
  | object fields => names.mapM fun name => fields.lookup name
  | array items => if items.length = names.length then some items else none
  | _ => none

/-- The name of an alternative that has no data: a string, or an object with the name and null. -/
def choice? : Json → Option String
  | string name => some name
  | object [(name, null)] => some name
  | _ => none

/-- A value found under a name is smaller than the list of fields. -/
theorem sizeOf_lookup_lt {name : String} {fields : List (String × Json)} {j : Json}
    (h : fields.lookup name = some j) : sizeOf j < sizeOf fields := by
  induction fields with
  | nil => simp at h
  | cons f fs ih =>
    obtain ⟨key, value⟩ := f
    rw [List.lookup_cons] at h
    split at h
    · cases h
      simp only [List.cons.sizeOf_spec, Prod.mk.sizeOf_spec]
      omega
    · have := ih h
      simp only [List.cons.sizeOf_spec]
      omega

end Json

end LutLogic
