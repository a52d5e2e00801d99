/-!
# Numbers and dates of a document

Readers for the numbers and dates of TOML. Each takes the characters that are left and gives what
it read with the rest, or nothing if its form does not start there. Underscores may stand between
two digits. An integer has to fit 64 bits, and a float may not round to positive infinity.
-/

namespace LutLogic.Toml

/-- A decimal digit. -/
def isDecimal (c : Char) : Bool := decide ('0' ≤ c ∧ c ≤ '9')

/-- A digit of the given base, up to sixteen. -/
def isDigitOf (base : Nat) (c : Char) : Bool :=
  if base ≤ 10 then decide ('0' ≤ c) && decide (c.toNat < 48 + base)
  else isDecimal c || decide ('a' ≤ c ∧ c ≤ 'f') || decide ('A' ≤ c ∧ c ≤ 'F')

/-- The value of a digit. -/
def digitOf (c : Char) : Nat :=
  if isDecimal c then c.toNat - 48 else if 'a' ≤ c then c.toNat - 87 else c.toNat - 55

/-- The number that digits of a base stand for. -/
def numberOf (base : Nat) (digits : List Char) : Nat :=
  digits.foldl (fun n d => n * base + digitOf d) 0

/-- The digits at the start of a text, without the underscores between them, and the rest. -/
def digitRun (isDigit : Char → Bool) : List Char → List Char × List Char
  | [] => ([], [])
  | '_' :: c :: cs =>
    if isDigit c then
      let (digits, rest) := digitRun isDigit cs
      (c :: digits, rest)
    else ([], '_' :: c :: cs)
  | c :: cs =>
    if isDigit c then
      let (digits, rest) := digitRun isDigit cs
      (c :: digits, rest)
    else ([], c :: cs)

/-- Reads digits, the first of which is no underscore. -/
def digits? (isDigit : Char → Bool) : List Char → Option (List Char × List Char)
  | [] => none
  | c :: cs => if isDigit c then some (digitRun isDigit (c :: cs)) else none

/-- Reads an optional sign, which is true if it is negative. -/
def sign : List Char → Bool × List Char
  | '-' :: cs => (true, cs)
  | '+' :: cs => (false, cs)
  | cs => (false, cs)

/-- Reads a sign and the digits of a decimal integer, which starts with zero only if it is that
one digit. -/
def decimal? (cs : List Char) : Option (Bool × List Char × List Char) :=
  let (negative, cs) := sign cs
  match cs with
  | '0' :: rest => some (negative, ['0'], rest)
  | _ => (digits? isDecimal cs).map fun (ds, rest) => (negative, ds, rest)

/-- The integer itself, if it fits 64 bits. -/
def fit64 (n : Int) : Option Int :=
  if -0x8000000000000000 ≤ n ∧ n < 0x8000000000000000 then some n else none

/-- Reads the digits of an integer that is not decimal. -/
def basedInteger? (base : Nat) (cs : List Char) : Option (Int × List Char) := do
  let (ds, rest) ← digits? (isDigitOf base) cs
  return (← fit64 (numberOf base ds), rest)

/-- Reads an integer. -/
def integer? (cs : List Char) : Option (Int × List Char) :=
  match cs with
  | '0' :: 'x' :: rest => basedInteger? 16 rest
  | '0' :: 'o' :: rest => basedInteger? 8 rest
  | '0' :: 'b' :: rest => basedInteger? 2 rest
  | _ => do
    let (negative, ds, rest) ← decimal? cs
    let n : Int := numberOf 10 ds
    return (← fit64 (if negative then -n else n), rest)

/-- Reads the part of a float after the point. -/
def fraction? : List Char → Option (List Char × List Char)
  | '.' :: cs => digits? isDecimal cs
  | _ => none

/-- Reads the exponent of a float. -/
def exponent? : List Char → Option (Int × List Char)
  | c :: cs =>
    if c = 'e' ∨ c = 'E' then do
      let (negative, cs) := sign cs
      let (ds, rest) ← digits? isDecimal cs
      let n : Int := numberOf 10 ds
      return (if negative then -n else n, rest)
    else none
  | [] => none

/-- The least number that rounds to infinity: half a unit above the largest double. -/
def doubleLimit : Nat := Nat.pow 2 1024 - Nat.pow 2 970

/-- Whether `mantissa * 10 ^ exponent` rounds to infinity. The number of digits decides, except
where it is the one of the limit itself. -/
def overflows (mantissa : Nat) (exponent : Int) : Bool :=
  let size : Int := (Nat.toDigits 10 mantissa).length + exponent
  -- A number of this size is at least `10 ^ (size - 1)` and below `10 ^ size`.
  if mantissa = 0 ∨ size < 309 then false
  else if 309 < size then true
  else if 0 ≤ exponent then decide (doubleLimit ≤ mantissa * Nat.pow 10 exponent.toNat)
  else decide (doubleLimit * Nat.pow 10 (-exponent).toNat ≤ mantissa)

/-- Reads the name of an infinity or of no number. -/
def specialFloat? (cs : List Char) : Option (List Char) :=
  match (sign cs).2 with
  | 'i' :: 'n' :: 'f' :: rest => some rest
  | 'n' :: 'a' :: 'n' :: rest => some rest
  | _ => none

/-- Reads what makes a number a float: the digits after a point, an exponent, or both. -/
def scale? (cs : List Char) : Option (List Char × Int × List Char) :=
  match exponent? cs with
  | some (exponent, rest) => some ([], exponent, rest)
  | none =>
    (fraction? cs).map fun (places, rest) =>
      match exponent? rest with
      | some (exponent, rest) => (places, exponent, rest)
      | none => (places, 0, rest)

/-- Reads a float that is written with a point or an exponent. -/
def plainFloat? (cs : List Char) : Option (List Char) := do
  let (negative, whole, rest) ← decimal? cs
  let (places, exponent, rest) ← scale? rest
  let mantissa := numberOf 10 (whole ++ places)
  if !negative && overflows mantissa (exponent - places.length) then none else some rest

/-- Reads a float. -/
def float? (cs : List Char) : Option (List Char) := (plainFloat? cs).or (specialFloat? cs)

/-- Reads a number of exactly `count` digits between `low` and `high`. -/
def field? (count low high : Nat) (cs : List Char) : Option (Nat × List Char) :=
  let ds := cs.take count
  if ds.length = count ∧ ds.all isDecimal then
    let n := numberOf 10 ds
    if low ≤ n ∧ n ≤ high then some (n, cs.drop count) else none
  else none

/-- Reads one character. -/
def char? (c : Char) : List Char → Option (List Char)
  | [] => none
  | d :: cs => if d = c then some cs else none

/-- The number of days of a month. -/
def daysOfMonth (year month : Nat) : Nat :=
  if month = 2 then
    if year % 4 = 0 ∧ (year % 100 ≠ 0 ∨ year % 400 = 0) then 29 else 28
  else if month = 4 ∨ month = 6 ∨ month = 9 ∨ month = 11 then 30
  else 31

/-- Reads a date: year, month and day. -/
def date? (cs : List Char) : Option (List Char) := do
  let (year, cs) ← field? 4 0 9999 cs
  let cs ← char? '-' cs
  let (month, cs) ← field? 2 1 12 cs
  let cs ← char? '-' cs
  let (_, cs) ← field? 2 1 (daysOfMonth year month) cs
  return cs

/-- Reads a time: hour, minute, second and possibly a fraction of it. -/
def time? (cs : List Char) : Option (List Char) := do
  let (_, cs) ← field? 2 0 23 cs
  let cs ← char? ':' cs
  let (_, cs) ← field? 2 0 59 cs
  let cs ← char? ':' cs
  let (_, cs) ← field? 2 0 60 cs
  match cs with
  | '.' :: c :: rest => return if isDecimal c then rest.dropWhile isDecimal else '.' :: c :: rest
  | _ => return cs

/-- Reads the difference of a time to universal time. -/
def offset? (cs : List Char) : Option (List Char) :=
  match cs with
  | [] => none
  | c :: rest =>
    if c = 'Z' ∨ c = 'z' then some rest
    else if c = '+' ∨ c = '-' then do
      let (_, rest) ← field? 2 0 23 rest
      let rest ← char? ':' rest
      let (_, rest) ← field? 2 0 59 rest
      return rest
    else none

/-- Reads a time after a date, with the mark between the two. -/
def timeOfDay? : List Char → Option (List Char)
  | [] => none
  | c :: cs => if c = 'T' ∨ c = 't' ∨ c = ' ' then time? cs else none

/-- Reads a date that may be followed by a time with an offset, or a time alone. -/
def datetime? (cs : List Char) : Option (List Char) :=
  match date? cs with
  | some rest =>
    match timeOfDay? rest with
    | some rest => some ((offset? rest).getD rest)
    | none => some rest
  | none => time? cs

end LutLogic.Toml
