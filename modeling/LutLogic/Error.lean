import LutLogic.Equation.Symbol
import LutLogic.Text
import LutLogic.Width

/-!
# Errors

What can be wrong with a request: a width or a pin outside its range, a part that was not given,
or a text that does not parse. A `ParseError` names the whole text, the place of the fault in it,
and the cause. Parsers work on characters and report a `Fault`, a cause with its byte offset;
`Fault.within` puts it into the text that was read, and `Fault.shift` moves it by what stands
before that text in a larger one.
-/

namespace LutLogic

/-- The kind of text that was being read. -/
inductive ParseTarget where
  /-- A truth table in hexadecimal or binary digits. -/
  | initString
  /-- An equation over input pins. -/
  | equation
  /-- The configuration of a cell, with mode, output pin and value. -/
  | cell
deriving DecidableEq, Repr

/-- The name of a kind of text in messages. -/
def ParseTarget.describe : ParseTarget → String
  | initString => "init string"
  | equation => "LUT equation"
  | cell => "LUT attribute"

/-- Why a text does not parse. -/
inductive ParseCause where
  /-- A literal starts with neither radix mark. -/
  | noRadixMark
  /-- No digit follows the radix mark. -/
  | noDigits
  /-- The digits do not fit 64 bits. -/
  | tooManyDigits
  /-- A character has no place in this kind of text. -/
  | unrecognizedCharacter
  /-- An `A` is not followed by the number of a pin. -/
  | unknownPin
  /-- One symbol was needed and another one found. -/
  | expected (wanted found : Symbol)
  /-- Something other than a pin follows an inversion mark. -/
  | expectedInput (found : Symbol)
  /-- No operand starts with the symbol found. -/
  | expectedOperand (found : Symbol)
  /-- Groups and chained operators exceed the nesting limit. -/
  | nestedTooDeeply
  /-- An attribute does not start with `#`. -/
  | noHash
  /-- No colon ends the operating mode. -/
  | noColon
  /-- The operating mode is not a known one. -/
  | unknownMode
  /-- No equals sign ends the output pin. -/
  | noEquals
  /-- The output pin is empty. -/
  | noPinName
  /-- The output pin has a character other than letters, digits and the underscore. -/
  | badPinCharacter
  /-- A reason given in words. -/
  | stated (reason : String)
deriving DecidableEq, Repr

/-- The wording of a cause. -/
def ParseCause.message : ParseCause → String
  | noRadixMark => "expected a '0x' or '0b' prefix"
  | noDigits => "no digits after prefix"
  | tooManyDigits => "too many digits for a 64-bit init string"
  | unrecognizedCharacter => "unrecognized character"
  | unknownPin => "expected an input pin A1 through A6"
  | expected wanted found => "expected " ++ wanted.describe ++ ", found " ++ found.describe
  | expectedInput found => "expected an input after '~', found " ++ found.describe
  | expectedOperand found => "expected an operand, found " ++ found.describe
  | nestedTooDeeply => "equation nested too deeply"
  | noHash => "expected '#'"
  | noColon => "expected ':' after the operating mode"
  | unknownMode => "expected operating mode LUT, RAM or ROM"
  | noEquals => "expected '=' after the output pin"
  | noPinName => "expected an output pin name"
  | badPinCharacter => "invalid character in output pin name"
  | stated reason => reason

/-- A fault in a text: its place, as a byte offset, and its cause. -/
structure Fault where
  /-- The byte offset of the fault. -/
  offset : Nat
  /-- What is wrong there. -/
  cause : ParseCause
deriving DecidableEq, Repr

/-- The same fault in a text in which `base` more bytes come first. -/
def Fault.shift (base : Nat) (f : Fault) : Fault := { f with offset := base + f.offset }

/-- A reading of a part, with a fault moved by the `base` bytes that stand before the part. -/
def Fault.located {α : Type} (base : Nat) (r : Except Fault α) : Except Fault α :=
  r.mapError (Fault.shift base)

/-- A text that does not parse, with the place and the cause. -/
structure ParseError where
  /-- The kind of text. -/
  target : ParseTarget
  /-- The whole text. -/
  input : String
  /-- The byte offset of the fault, at most the length of the text. -/
  offset : Nat
  /-- What is wrong there. -/
  cause : ParseCause
deriving DecidableEq, Repr

namespace ParseError

/-- The error for a fault in `input`; an offset beyond the end is moved to the end. -/
def ofFault (target : ParseTarget) (input : String) (f : Fault) : ParseError where
  target := target
  input := input
  offset := min f.offset (Text.byteCount input.toList)
  cause := f.cause

/-- The text from the fault on, empty if the offset is not where a character starts. -/
def fragment (e : ParseError) : String :=
  String.ofList (Text.afterBytes e.offset e.input.toList)

/-- The wording of a parse error. -/
def message (e : ParseError) : String :=
  "invalid " ++ e.target.describe ++ " '" ++ e.input ++ "': " ++ e.cause.message ++ " at offset "
    ++ toString e.offset ++ " (near '" ++ e.fragment ++ "')"

end ParseError

/-- A part from which a binary operation or a cell is put together. -/
inductive Part where
  /-- The operator of an operation. -/
  | operator
  /-- The left operand of an operation. -/
  | left
  /-- The right operand of an operation. -/
  | right
  /-- The operating mode of a cell. -/
  | operatingMode
  /-- The logic contents of a cell. -/
  | contents
deriving DecidableEq, Repr

/-- The name of a part in messages. -/
def Part.describe : Part → String
  | operator => "op"
  | left => "left"
  | right => "right"
  | operatingMode => "operating_mode"
  | contents => "contents"

/-- What can be wrong with a request about look-up tables. -/
inductive LutError where
  /-- A number of inputs outside one to six. -/
  | inputCount (count : Nat)
  /-- A pin number outside one to six. -/
  | inputIndex (index : Nat)
  /-- A text that does not parse. -/
  | parse (error : ParseError)
  /-- A part that was never given. -/
  | missing (part : Part)
deriving DecidableEq, Repr

/-- The wording of an error. -/
def LutError.message : LutError → String
  | inputCount count =>
    "unsupported number of LUT inputs " ++ toString count ++ ": must be between 1 and 6"
  | inputIndex index =>
    "LUT input index A" ++ toString index ++ " is out of range: must be between A1 and A6"
  | parse e => e.message
  | missing part => "missing required field: " ++ part.describe

/-- A result read from the characters of `input`, with a fault turned into an error about it. -/
def Fault.within {α : Type} (target : ParseTarget) (input : String) (r : Except Fault α) :
    Except LutError α :=
  r.mapError fun f => .parse (.ofFault target input f)

/-- The width of `count` inputs. -/
def Width.ofNat (count : Nat) : Except LutError Width :=
  match Width.ofNat? count with
  | some w => .ok w
  | none => .error (.inputCount count)

/-! ## Results -/

/-- A computation in two parts succeeds exactly when both parts do. -/
theorem bind_eq_ok_iff {ε α β : Type} {x : Except ε α} {f : α → Except ε β} {b : β} :
    (x >>= f) = .ok b ↔ ∃ a, x = .ok a ∧ f a = .ok b := by
  cases x with
  | error e => simp [bind, Except.bind]
  | ok a => simp [bind, Except.bind]

/-- A mapped result is a success exactly when the result is one. -/
theorem map_eq_ok_iff {ε α β : Type} {x : Except ε α} {f : α → β} {b : β} :
    x.map f = .ok b ↔ ∃ a, x = .ok a ∧ f a = b := by
  cases x with
  | error e => simp [Except.map]
  | ok a => simp [Except.map]

/-- Rewording refusals changes no success. -/
theorem mapError_eq_ok_iff {ε δ α : Type} {x : Except ε α} {f : ε → δ} {a : α} :
    x.mapError f = .ok a ↔ x = .ok a := by
  cases x with
  | error e =>
    constructor
    · intro h
      cases h
    · intro h
      cases h
  | ok b =>
    constructor
    · intro h
      cases h
      rfl
    · rintro ⟨⟩
      rfl

/-- A computation in two parts is refused where the first part is, or the second one. -/
theorem bind_eq_error_iff {ε α β : Type} {x : Except ε α} {f : α → Except ε β} {e : ε} :
    (x >>= f) = .error e ↔ x = .error e ∨ ∃ a, x = .ok a ∧ f a = .error e := by
  cases x with
  | error d => simp [bind, Except.bind]
  | ok a => simp [bind, Except.bind]

/-- A mapped result is refused as the result is. -/
theorem map_eq_error_iff {ε α β : Type} {x : Except ε α} {f : α → β} {e : ε} :
    x.map f = .error e ↔ x = .error e := by
  cases x with
  | error d => simp [Except.map]
  | ok a => simp [Except.map]

/-- A refusal is reworded, and nothing else is refused. -/
theorem mapError_eq_error_iff {ε δ α : Type} {x : Except ε α} {f : ε → δ} {d : δ} :
    x.mapError f = .error d ↔ ∃ e, x = .error e ∧ f e = d := by
  cases x with
  | error e =>
    constructor
    · rintro ⟨⟩
      exact ⟨e, rfl, rfl⟩
    · rintro ⟨_, ⟨⟩, rfl⟩
      rfl
  | ok a =>
    constructor
    · nofun
    · rintro ⟨_, ⟨⟩, -⟩

/-- Turning faults into errors leaves what is made of the result. -/
theorem Fault.map_within {α β : Type} {target : ParseTarget} {input : String}
    {r : Except Fault α} {f : α → β} :
    (Fault.within target input r).map f = Fault.within target input (r.map f) := by
  cases r <;> rfl

/-- Turning faults into errors keeps what was read. -/
theorem Fault.within_eq_ok_iff {α : Type} {target : ParseTarget} {input : String}
    {r : Except Fault α} {a : α} : Fault.within target input r = .ok a ↔ r = .ok a :=
  mapError_eq_ok_iff

/-- What is refused as a text is refused with a parse error, for a fault that was found in it. -/
theorem Fault.within_eq_error_iff {α : Type} {target : ParseTarget} {input : String}
    {r : Except Fault α} {error : LutError} :
    Fault.within target input r = .error error ↔
      ∃ f, r = .error f ∧ .parse (.ofFault target input f) = error :=
  mapError_eq_error_iff

/-- The error about a text is one of its faults exactly if nothing was read. -/
theorem Fault.exists_within_eq_error_iff {α : Type} {target : ParseTarget} {input : String}
    {r : Except Fault α} :
    (∃ f, Fault.within target input r = .error (.parse (.ofFault target input f))) ↔
      ∀ a, r ≠ .ok a := by
  cases r with
  | error f =>
    constructor
    · intro _ a
      nofun
    · intro _
      exact ⟨f, rfl⟩
  | ok a =>
    constructor
    · rintro ⟨f, hf⟩
      cases hf
    · intro h
      exact absurd rfl (h a)

/-- Moving faults keeps what was read. -/
theorem Fault.located_eq_ok_iff {α : Type} {base : Nat} {r : Except Fault α} {a : α} :
    Fault.located base r = .ok a ↔ r = .ok a :=
  mapError_eq_ok_iff

/-- The number of inputs of a width is accepted. -/
theorem Width.ofNat_inputs (w : Width) : ofNat w.inputs = .ok w := by
  rw [ofNat, ofNat?_inputs]

/-- A count is accepted as the width that has this number of inputs. -/
theorem Width.ofNat_eq_ok_iff {count : Nat} {w : Width} :
    ofNat count = .ok w ↔ w.inputs = count := by
  rw [← ofNat?_eq_some_iff, ofNat]
  cases ofNat? count <;> simp

/-- Only a count outside one to six is refused, and it is named. -/
theorem Width.ofNat_eq_error_iff {count : Nat} {e : LutError} :
    ofNat count = .error e ↔ ¬(1 ≤ count ∧ count ≤ 6) ∧ e = .inputCount count := by
  by_cases h : 1 ≤ count ∧ count ≤ 6
  · have hok : ofNat count = .ok ⟨count, h.1, h.2⟩ := ofNat_inputs ⟨count, h.1, h.2⟩
    simp [hok, h]
  · have hnone : ofNat? count = none := dif_neg h
    rw [ofNat, hnone]
    simp [h, eq_comm]

/-- Where a count is judged before a text is read, it is reported exactly if it is no width: what is
wrong with the text is a parse error. -/
theorem Width.ofNat_bind_within_eq_inputCount_iff {α : Type} {target : ParseTarget}
    {input : String} {read : Width → Except Fault α} {count : Nat} :
    (ofNat count >>= fun w => Fault.within target input (read w)) = .error (.inputCount count) ↔
      ¬(1 ≤ count ∧ count ≤ 6) := by
  rw [bind_eq_error_iff, ofNat_eq_error_iff]
  constructor
  · rintro (⟨hcount, -⟩ | ⟨w, -, hread⟩)
    · exact hcount
    · obtain ⟨f, -, hf⟩ := mapError_eq_error_iff.mp hread
      cases hf
  · intro hcount
    exact .inl ⟨hcount, rfl⟩

end LutLogic
