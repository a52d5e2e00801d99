import LutLogic.Proofs.TruthTable.Words

/-!
# Truth tables in words without traps

A shift by the width of a word or more, a predecessor of zero and a place beyond the end of a list
are no values on a machine: it stops, or goes on with something else. `Trap` is what can be wrong
there, and the operations of `Traps` are those on tables in words with every such step checked. The
numbers of inputs, rows and places are worked out as in the machine as well: the rows of `k` inputs
are the bit that is shifted to place `k` of 32.

Each operation is the one without checks (`Traps.resize_eq`, `Traps.cofactors_eq`, …), for any word
at all: the amounts come from widths, which are at most six, and from rows of a table and inputs
that were compared before. At six inputs the rows reach the 64 bits of a word, so their mask is not
made by a shift, and the last input is moved by 32. `Traps.outcome` puts the operations together to
any run.
-/

namespace LutLogic

/-- What cannot be done with machine numbers. -/
inductive Trap where
  /-- A shift of a word by its number of bits or more. -/
  | shift (amount bits : Nat)
  /-- The predecessor of zero. -/
  | underflow
  /-- A place beyond the end of a list. -/
  | place (index length : Nat)
deriving DecidableEq, Repr

namespace Traps

/-! ## Numbers -/

/-- A word shifted up, by less than its number of bits. -/
def shiftLeft {n : Nat} (x : BitVec n) (amount : Nat) : Except Trap (BitVec n) :=
  if amount < n then .ok (x <<< amount) else .error (.shift amount n)

/-- A word shifted down, by less than its number of bits. -/
def shiftRight {n : Nat} (x : BitVec n) (amount : Nat) : Except Trap (BitVec n) :=
  if amount < n then .ok (x >>> amount) else .error (.shift amount n)

/-- The number before another one. -/
def pred : Nat → Except Trap Nat
  | 0 => .error .underflow
  | k + 1 => .ok k

/-- The entry of a list at a place. -/
def entry {α : Type} (xs : List α) (index : Nat) : Except Trap α :=
  match xs[index]? with
  | some x => .ok x
  | none => .error (.place index xs.length)

/-- The number of rows of `k` inputs, as a number of 32 bits. -/
def rows (k : Nat) : Except Trap Nat := do
  let bit ← shiftLeft 1#32 k
  return bit.toNat

/-- The word with a 1 in each of the rows of `k` inputs. -/
def mask (k : Nat) : Except Trap (BitVec 64) := do
  let n ← rows k
  if 64 ≤ n then return BitVec.allOnes 64
  else do
    let bit ← shiftLeft 1#64 n
    return BitVec.ofNat 64 (← pred bit.toNat)

/-! ## Tables -/

/-- The table of the low bits of a word. -/
def ofWord (word : BitVec 64) (w : Width) : Except Trap TableWord := do
  return ⟨word &&& (← mask w.inputs), w⟩

/-- The outputs over `k` inputs, repeated over `steps` further inputs. -/
def repeatWord (word : BitVec 64) (k : Nat) : Nat → Except Trap (BitVec 64)
  | 0 => return word
  | steps + 1 => do
    let v ← repeatWord word k steps
    return v ||| (← shiftLeft v (← rows (k + steps)))

/-- The table at another width. -/
def resize (s : TableWord) (w : Width) : Except Trap TableWord :=
  if s.width.inputs < w.inputs then do
    return ⟨← repeatWord s.word s.width.inputs (w.inputs - s.width.inputs), w⟩
  else if w.inputs < s.width.inputs then do
    return ⟨s.word &&& (← mask w.inputs), w⟩
  else return ⟨s.word, w⟩

/-- The output in row `row`, and 0 for a row beyond the table. -/
def bit (s : TableWord) (row : Nat) : Except Trap Bool := do
  if row < (← rows s.width.inputs) then return (← shiftRight s.word row) &&& 1#64 != 0#64
  else return false

/-- The tables with an input held at 0 and at 1. -/
def cofactors (s : TableWord) (input : Nat) : Except Trap (Option (TableWord × TableWord)) :=
  if 1 ≤ input ∧ input ≤ s.width.inputs then do
    let place ← pred input
    let pattern := BitVec.ofNat 64 (← entry inputPatterns place)
    let stride ← rows place
    let low := s.word &&& ~~~pattern
    let high ← shiftRight (s.word &&& pattern) stride
    return some (← ofWord (low ||| (← shiftLeft low stride)) s.width,
      ← ofWord (high ||| (← shiftLeft high stride)) s.width)
  else return none

/-! ## Equations -/

/-- The value of a pin in a row of 32 bits. -/
def pinValue (row : BitVec 32) (index : Nat) : Except Trap Bool :=
  if 1 ≤ index ∧ index ≤ maxRowPin then do
    return (← shiftRight row (← pred index)) &&& 1#32 != 0#32
  else return false

/-- The output of an equation in a row. -/
def evaluate (row : BitVec 32) : Equation → Except Trap Bool
  | .constant output => return output
  | .input index inverted => do return (← pinValue row index) != inverted
  | .binary op left right => do return op.apply (← evaluate row left) (← evaluate row right)

/-- Sets the bit of a row in which the output of an equation is 1. -/
def setRow (e : Equation) (acc : BitVec 64) (row : Nat) : Except Trap (BitVec 64) := do
  if ← evaluate (BitVec.ofNat 32 row) e then return acc ||| (← shiftLeft 1#64 row)
  else return acc

/-- The table of an equation. -/
def ofEquation (e : Equation) (w : Width) : Except Trap TableWord := do
  let word ← (List.range (← rows w.inputs)).foldlM (setRow e) 0#64
  ofWord word w

/-! ## Numbers that are not trapped -/

/-- A word is shifted up by less than its number of bits. -/
theorem shiftLeft_eq {n : Nat} (x : BitVec n) {amount : Nat} (h : amount < n) :
    shiftLeft x amount = .ok (x <<< amount) :=
  if_pos h

/-- A word is shifted down by less than its number of bits. -/
theorem shiftRight_eq {n : Nat} (x : BitVec n) {amount : Nat} (h : amount < n) :
    shiftRight x amount = .ok (x >>> amount) :=
  if_pos h

/-- A number that is not 0 has one before it. -/
theorem pred_eq {n : Nat} (h : 0 < n) : pred n = .ok (n - 1) := by
  cases n with
  | zero => cases h
  | succ k => rfl

/-- A place in a list has an entry. -/
theorem entry_eq {α : Type} {xs : List α} {index : Nat} (h : index < xs.length) (default : α) :
    entry xs index = .ok (xs.getD index default) := by
  unfold entry
  rw [List.getD_eq_getElem?_getD, List.getElem?_eq_getElem h]
  rfl

/-- A shifted bit is a power. -/
theorem toNat_one_shiftLeft {n k : Nat} (h : k < n) : (1#n <<< k).toNat = 2 ^ k := by
  have hone : 1 < 2 ^ n := Nat.one_lt_two_pow (Nat.ne_of_gt (Nat.zero_lt_of_lt h))
  have hlt : 2 ^ k < 2 ^ n := Nat.pow_lt_pow_right (by decide) h
  rw [BitVec.toNat_shiftLeft, BitVec.toNat_ofNat, Nat.mod_eq_of_lt hone, Nat.shiftLeft_eq,
    Nat.one_mul, Nat.mod_eq_of_lt hlt]

/-- The rows of up to 31 inputs are counted in 32 bits. -/
theorem rows_eq {k : Nat} (h : k < 32) : rows k = .ok (2 ^ k) := by
  refine bind_eq_ok_iff.mpr ⟨_, shiftLeft_eq _ h, ?_⟩
  exact congrArg Except.ok (toNat_one_shiftLeft h)

/-- The mask of up to six inputs is made. The rows of five are moved by 32, and those of six are
the whole word. -/
theorem mask_eq {k : Nat} (h : k ≤ 6) : mask k = .ok (BitVec.ofNat 64 (rowMask k)) := by
  refine bind_eq_ok_iff.mpr ⟨_, rows_eq (Nat.lt_of_le_of_lt h (by decide)), ?_⟩
  rcases Nat.lt_or_eq_of_le h with hlt | rfl
  · have hrows : 2 ^ k < 64 := Nat.pow_lt_pow_right (by decide) hlt
    have hpos : 0 < (1#64 <<< 2 ^ k).toNat := by
      rw [toNat_one_shiftLeft hrows]
      exact Nat.two_pow_pos _
    rw [if_neg (Nat.not_le.mpr hrows)]
    refine bind_eq_ok_iff.mpr ⟨_, shiftLeft_eq _ hrows, ?_⟩
    refine bind_eq_ok_iff.mpr ⟨_, pred_eq hpos, ?_⟩
    rw [toNat_one_shiftLeft hrows]
    rfl
  · rfl

/-- The mask of a width is made. -/
theorem mask_inputs (w : Width) : mask w.inputs = .ok w.wordMask := by
  rw [mask_eq w.le_max, w.wordMask_eq]
  rfl

/-- A width has few enough inputs for its rows to be counted. -/
theorem rows_inputs (w : Width) : rows w.inputs = .ok w.rows :=
  rows_eq (Nat.lt_of_le_of_lt w.le_max (by decide))

/-! ## Tables that are not trapped -/

/-- A table is made of a word. -/
theorem ofWord_eq (word : BitVec 64) (w : Width) : ofWord word w = .ok (.ofWord word w) :=
  bind_eq_ok_iff.mpr ⟨_, mask_inputs w, rfl⟩

/-- A word is repeated over inputs up to the sixth. The last copy is moved by at most 32. -/
theorem repeatWord_eq (word : BitVec 64) {k steps : Nat} (h : k + steps ≤ 6) :
    repeatWord word k steps = .ok (TableWord.repeatWord word k steps) := by
  induction steps with
  | zero => rfl
  | succ steps ih =>
    have hlast : k + steps < 6 := h
    have hrows : 2 ^ (k + steps) < 64 := Nat.pow_lt_pow_right (by decide) hlast
    refine bind_eq_ok_iff.mpr ⟨_, ih (Nat.le_of_lt hlast), ?_⟩
    refine bind_eq_ok_iff.mpr ⟨_, rows_eq (Nat.lt_trans hlast (by decide)), ?_⟩
    exact bind_eq_ok_iff.mpr ⟨_, shiftLeft_eq _ hrows, rfl⟩

/-- Any table has every other width. -/
theorem resize_eq (s : TableWord) (w : Width) : resize s w = .ok (s.resize w) := by
  unfold resize TableWord.resize
  split
  · next hgrow =>
    have hwidth : s.width.inputs + (w.inputs - s.width.inputs) ≤ 6 := by
      rw [Nat.add_sub_cancel' (Nat.le_of_lt hgrow)]
      exact w.le_max
    exact bind_eq_ok_iff.mpr ⟨_, repeatWord_eq s.word hwidth, rfl⟩
  · split
    · exact bind_eq_ok_iff.mpr ⟨_, mask_inputs w, rfl⟩
    · rfl

/-- Any table is asked for any row. -/
theorem bit_eq (s : TableWord) (row : Nat) : bit s row = .ok (s.bit row) := by
  refine bind_eq_ok_iff.mpr ⟨_, rows_inputs s.width, ?_⟩
  unfold TableWord.bit
  split
  · next hrow =>
    have hbits : row < 64 := Nat.lt_of_lt_of_le hrow s.width.rows_le
    refine bind_eq_ok_iff.mpr ⟨_, shiftRight_eq s.word hbits, ?_⟩
    rw [decide_eq_true hrow, Bool.true_and]
    rfl
  · next hrow =>
    rw [decide_eq_false hrow, Bool.false_and]
    rfl

/-- Any table is split on any input. An input of the table is at most the sixth, which has a pattern
and whose rows are moved by 32. -/
theorem cofactors_eq (s : TableWord) (input : Nat) :
    cofactors s input = .ok (s.cofactors input) := by
  unfold cofactors TableWord.cofactors
  split
  · next h =>
    have hplace : input - 1 < 6 := by
      have := Nat.le_trans h.2 s.width.le_max
      simp only [maxInputs] at this
      omega
    have hstride : 2 ^ (input - 1) < 64 := Nat.pow_lt_pow_right (by decide) hplace
    refine bind_eq_ok_iff.mpr ⟨_, pred_eq h.1, ?_⟩
    refine bind_eq_ok_iff.mpr ⟨_, entry_eq hplace 0, ?_⟩
    refine bind_eq_ok_iff.mpr ⟨_, rows_eq (Nat.lt_trans hplace (by decide)), ?_⟩
    refine bind_eq_ok_iff.mpr ⟨_, shiftRight_eq _ hstride, ?_⟩
    refine bind_eq_ok_iff.mpr ⟨_, shiftLeft_eq _ hstride, ?_⟩
    refine bind_eq_ok_iff.mpr ⟨_, ofWord_eq _ _, ?_⟩
    refine bind_eq_ok_iff.mpr ⟨_, shiftLeft_eq _ hstride, ?_⟩
    exact bind_eq_ok_iff.mpr ⟨_, ofWord_eq _ _, rfl⟩
  · rfl

/-! ## Equations that are not trapped -/

/-- Any pin has a value in any row. -/
theorem pinValue_eq (row : BitVec 32) (index : Nat) :
    pinValue row index = .ok (LutLogic.pinValue row.toNat index) := by
  unfold pinValue LutLogic.pinValue
  split
  · next h =>
    have hbits : index - 1 < 32 := Nat.sub_one_lt_of_le h.1 h.2
    refine bind_eq_ok_iff.mpr ⟨_, pred_eq h.1, ?_⟩
    refine bind_eq_ok_iff.mpr ⟨_, shiftRight_eq row hbits, ?_⟩
    rw [TableWord.shiftRight_and_one_bne_zero (by decide), decide_eq_true h, Bool.true_and,
      BitVec.testBit_toNat]
    rfl
  · next h =>
    rw [decide_eq_false h, Bool.false_and]
    rfl

/-- Any equation has an output in any row. -/
theorem evaluate_eq (row : BitVec 32) (e : Equation) :
    evaluate row e = .ok (e.evaluate row.toNat) := by
  induction e with
  | constant output => rfl
  | input index inverted => exact bind_eq_ok_iff.mpr ⟨_, pinValue_eq row index, rfl⟩
  | binary op left right ihl ihr =>
    refine bind_eq_ok_iff.mpr ⟨_, ihl, ?_⟩
    exact bind_eq_ok_iff.mpr ⟨_, ihr, rfl⟩

/-- A fold whose steps on the members of a list have results has one itself. -/
theorem foldlM_eq {α β : Type} {f : β → α → Except Trap β} {g : β → α → β} {xs : List α}
    (h : ∀ acc, ∀ x ∈ xs, f acc x = .ok (g acc x)) (acc : β) :
    xs.foldlM f acc = .ok (xs.foldl g acc) := by
  induction xs generalizing acc with
  | nil => rfl
  | cons x xs ih =>
    rw [List.foldlM_cons]
    refine bind_eq_ok_iff.mpr ⟨_, h acc x List.mem_cons_self, ?_⟩
    exact ih (fun acc y hy => h acc y (List.mem_cons_of_mem x hy)) (g acc x)

/-- The bit of a row below 64 is set. -/
theorem setRow_eq (e : Equation) (acc : BitVec 64) {row : Nat} (h : row < 64) :
    setRow e acc row = .ok (if e.evaluate row then acc ||| 1#64 <<< row else acc) := by
  have hnat : (BitVec.ofNat 32 row).toNat = row := by
    rw [BitVec.toNat_ofNat, Nat.mod_eq_of_lt (Nat.lt_trans h (by decide))]
  refine bind_eq_ok_iff.mpr ⟨_, evaluate_eq _ e, ?_⟩
  rw [hnat]
  split
  · exact bind_eq_ok_iff.mpr ⟨_, shiftLeft_eq _ h, rfl⟩
  · rfl

/-- Any equation has a table at every width. -/
theorem ofEquation_eq (e : Equation) (w : Width) : ofEquation e w = .ok (.ofEquation e w) := by
  have hstep (acc : BitVec 64) : ∀ row ∈ List.range w.rows,
      setRow e acc row = .ok (if e.evaluate row then acc ||| 1#64 <<< row else acc) :=
    fun _ hrow => setRow_eq e acc (Nat.lt_of_lt_of_le (List.mem_range.mp hrow) w.rows_le)
  refine bind_eq_ok_iff.mpr ⟨_, rows_inputs w, ?_⟩
  refine bind_eq_ok_iff.mpr ⟨_, foldlM_eq hstep 0#64, ?_⟩
  rw [ofWord_eq, TableWord.ofEquation, List.foldl_filter]

/-! ## Runs -/

/-- Goes on with what there is, if there is anything. -/
def onSome {α β : Type} (x : Option α) (f : α → Except Trap (Option β)) :
    Except Trap (Option β) :=
  match x with
  | none => return none
  | some a => f a

/-- What goes on without a trap gives what it gives without checks. -/
theorem onSome_eq {α β : Type} {f : α → Except Trap (Option β)} {g : α → Option β}
    (h : ∀ a, f a = .ok (g a)) (x : Option α) : onSome x f = .ok (x.bind g) := by
  cases x with
  | none => rfl
  | some a => exact h a

/-- What a run gives in words, with every step checked. The digits of a literal are moved by one or
by four bits. -/
def outcome : TableRun → Except Trap (Option TableWord)
  | .value word count => onSome (Width.ofNat? count) fun w => do return some (← ofWord word w)
  | .constant output w => do
    return some (← ofWord (if output then BitVec.allOnes 64 else 0#64) w)
  | .literal text count => ofLiteral text count
  | .stored record => ofLiteral record.init record.inputs
  | .equation e count => onSome (Width.ofNat? count) fun w =>
    if e.badInput? = none then do return some (← ofEquation e w) else return none
  | .resize run count => do
    onSome (← outcome run) fun s =>
      onSome (Width.ofNat? count) fun w => do return some (← resize s w)
  | .half run input held => do
    onSome (← outcome run) fun s => do
      return (← cofactors s input).map fun (low, high) => if held then high else low
where
  /-- The table of a literal at a number of inputs. -/
  ofLiteral (text : String) (count : Nat) : Except Trap (Option TableWord) :=
    onSome (Width.ofNat? count) fun w =>
      onSome (Radix.wordOfLiteral text.toList) fun word => do return some (← ofWord word w)

/-- A literal is not trapped. -/
theorem outcome_ofLiteral (text : String) (count : Nat) :
    outcome.ofLiteral text count = .ok ((Width.ofNat? count).bind (TableWord.ofLiteral text)) := by
  refine onSome_eq (fun w => ?_) _
  unfold TableWord.ofLiteral
  rw [Option.map_eq_bind]
  exact onSome_eq (fun word => bind_eq_ok_iff.mpr ⟨_, ofWord_eq word w, rfl⟩) _

/-- A run is not trapped, be it refused or not. -/
theorem outcome_eq (run : TableRun) : outcome run = .ok run.word? := by
  induction run with
  | value word count =>
    rw [TableRun.word?, Option.map_eq_bind]
    exact onSome_eq (fun w => bind_eq_ok_iff.mpr ⟨_, ofWord_eq word w, rfl⟩) _
  | constant output w => exact bind_eq_ok_iff.mpr ⟨_, ofWord_eq _ w, rfl⟩
  | literal text count => exact outcome_ofLiteral text count
  | stored record => exact outcome_ofLiteral record.init record.inputs
  | equation e count =>
    refine onSome_eq (fun w => ?_) _
    split
    · exact bind_eq_ok_iff.mpr ⟨_, ofEquation_eq e w, rfl⟩
    · rfl
  | resize run count ih =>
    refine bind_eq_ok_iff.mpr ⟨_, ih, onSome_eq (fun s => ?_) _⟩
    rw [Option.map_eq_bind]
    exact onSome_eq (fun w => bind_eq_ok_iff.mpr ⟨_, resize_eq s w, rfl⟩) _
  | half run input held ih =>
    refine bind_eq_ok_iff.mpr ⟨_, ih, onSome_eq (fun s => ?_) _⟩
    exact bind_eq_ok_iff.mpr ⟨_, cofactors_eq s input, rfl⟩

end Traps

end LutLogic
