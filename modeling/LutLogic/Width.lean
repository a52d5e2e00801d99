/-!
# LUT widths

A look-up table has between one and six inputs. `Width` is that number with its bounds, so that
whatever is built at a width needs no further check. A table of `k` inputs has `2 ^ k` rows, and
`rowMask k` is the value in which every one of them is 1.
-/

namespace LutLogic

/-- The smallest number of inputs of a look-up table. -/
def minInputs : Nat := 1

/-- The largest number of inputs of a look-up table. -/
def maxInputs : Nat := 6

/-- The value of a truth table over `k` inputs whose `2 ^ k` rows are all 1. -/
def rowMask (k : Nat) : Nat := Nat.pow 2 (Nat.pow 2 k) - 1

/-- The number of inputs of a look-up table. -/
structure Width where
  /-- The number of inputs. -/
  inputs : Nat
  /-- There is at least one input. -/
  min_le : minInputs ≤ inputs
  /-- There are at most six inputs. -/
  le_max : inputs ≤ maxInputs
deriving DecidableEq

namespace Width

/-- The width of `count` inputs, if there is one. -/
def ofNat? (count : Nat) : Option Width :=
  if h : minInputs ≤ count ∧ count ≤ maxInputs then some ⟨count, h.1, h.2⟩ else none

/-- The largest width. -/
def six : Width := ⟨6, by decide, by decide⟩

/-- The number of rows of a truth table of this width. -/
def rows (w : Width) : Nat := Nat.pow 2 w.inputs

/-- The value whose rows are all 1 at this width. -/
def mask (w : Width) : Nat := rowMask w.inputs

/-- A width as a message shows it. -/
def describe (w : Width) : String := "NumInputs(" ++ toString w.inputs ++ ")"

instance : Inhabited Width := ⟨six⟩

/-- Two widths with the same number of inputs are the same width. -/
theorem ext_inputs {v w : Width} (h : v.inputs = w.inputs) : v = w := by
  cases v; cases w; simp_all

/-- A width is read back from its number of inputs. -/
theorem ofNat?_inputs (w : Width) : ofNat? w.inputs = some w := by
  simp [ofNat?, w.min_le, w.le_max]

/-- A count is a width exactly when it is between one and six. -/
theorem ofNat?_eq_some_iff {count : Nat} {w : Width} :
    ofNat? count = some w ↔ w.inputs = count := by
  constructor
  · intro h
    unfold ofNat? at h
    split at h
    · cases h; rfl
    · cases h
  · rintro rfl
    exact ofNat?_inputs w

/-- A table has at least one row. -/
theorem rows_pos (w : Width) : 0 < w.rows := Nat.two_pow_pos _

end Width

end LutLogic
