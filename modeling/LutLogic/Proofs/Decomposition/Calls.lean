import LutLogic.Proofs.Decomposition.Normal
import LutLogic.Proofs.TruthTable.Traps

/-!
# The calls that decode a table

The equation of a table is found by splitting the table on its last input, down to tables without
inputs. A table without inputs has one row, so it is constant and is not split further; nothing but
this keeps the predecessor of its width from being taken. It is constant only as long as no bit lies
above its row, which holds of tables that are made and must then hold of both halves of a split.

`Traps.decode` takes the equation out of a word with every shift and predecessor checked, and lists
the calls that it makes. `Traps.decode_eq` is the invariant: a value that fits the rows of its width
is decoded without a trap, and what is called on its halves fits the rows of theirs. Each call is
one level deeper and one input narrower than the one before. `TableRun.untrapped_of_run` puts this
together with the other operations on tables, for any table that a run gives.
-/

namespace LutLogic

namespace Traps

/-- A call that decodes a value. -/
structure Call where
  /-- The number of calls that it is made in. -/
  level : Nat
  /-- The number of inputs that are left. -/
  width : Nat
  /-- The rows over these inputs. -/
  value : BitVec 64
deriving DecidableEq, Repr

/-- The equation of the rows over `width` inputs, and the calls that are made for it, this one
first. -/
def decode (level width : Nat) (value : BitVec 64) : Except Trap (Equation × List Call) := do
  let call : Call := ⟨level, width, value⟩
  if value = 0#64 then return (.constant false, [call])
  else do
    let ones ← mask width
    if value = ones then return (.constant true, [call])
    else match width with
      | 0 => .error .underflow
      | rest + 1 => do
        let half ← rows rest
        let ones ← mask rest
        let low := value &&& ones
        let high := (← shiftRight value half) &&& ones
        if low = high then do
          let (e, calls) ← decode (level + 1) rest low
          return (e, call :: calls)
        else do
          let (e, calls) ← decode (level + 1) rest low
          let (f, more) ← decode (level + 1) rest high
          return (.select (rest + 1) e f, call :: (calls ++ more))

/-- The equation of a table, and the calls that are made for it. -/
def toEquation (s : TableWord) : Except Trap (Equation × List Call) :=
  decode 0 s.width.inputs s.word

/-- What holds of every call in the decoding of a table over `inputs` inputs. -/
structure Call.Fits (inputs : Nat) (c : Call) : Prop where
  /-- Every level takes an input away. -/
  level_add_width : c.level + c.width = inputs
  /-- There are at most six inputs. -/
  width_le : c.width ≤ 6
  /-- No bit lies above the rows. -/
  value_le : c.value.toNat ≤ rowMask c.width
  /-- Without inputs it returns a constant at once. -/
  decode_of_width_eq_zero : c.width = 0 →
    ∃ output, decode c.level c.width c.value = .ok (.constant output, [c])

/-! ## Masks -/

/-- A value is the mask of up to six inputs as a word exactly if it is as a number. -/
theorem eq_ofNat_rowMask_iff {k : Nat} (h : k ≤ 6) {value : BitVec 64} :
    value = BitVec.ofNat 64 (rowMask k) ↔ value.toNat = rowMask k := by
  rw [BitVec.toNat_eq, toNat_ofNat_rowMask h]

/-- A masked word is the masked number. -/
theorem toNat_and_rowMask {k : Nat} (h : k ≤ 6) (value : BitVec 64) :
    (value &&& BitVec.ofNat 64 (rowMask k)).toNat = value.toNat &&& rowMask k := by
  rw [BitVec.toNat_and, toNat_ofNat_rowMask h]

/-! ## Decoding -/

/-- Rows that are all the same are a constant, and no other call is made. -/
theorem decode_constant (level : Nat) {k : Nat} (hk : k ≤ 6) {value : BitVec 64}
    (h : value.toNat = 0 ∨ value.toNat = rowMask k) :
    ∃ output, Equation.ofRows k value.toNat = .constant output ∧
      decode level k value = .ok (.constant output, [⟨level, k, value⟩]) := by
  unfold decode
  by_cases hzero : value = 0#64
  · subst hzero
    exact ⟨false, Equation.ofRows_zero k, if_pos rfl⟩
  · have hones : value.toNat = rowMask k :=
      h.resolve_left fun h0 => hzero (BitVec.eq_of_toNat_eq h0)
    refine ⟨true, by rw [hones, Equation.ofRows_rowMask], ?_⟩
    dsimp only
    rw [if_neg hzero]
    refine bind_eq_ok_iff.mpr ⟨_, mask_eq hk, ?_⟩
    exact if_pos ((eq_ofNat_rowMask_iff hk).mpr hones)

/-- Rows that are all the same are decoded by a call that fits. -/
theorem exists_decode_constant (level : Nat) {k : Nat} (hk : k ≤ 6) {value : BitVec 64}
    (hv : value.toNat ≤ rowMask k) (h : value.toNat = 0 ∨ value.toNat = rowMask k) :
    ∃ calls, decode level k value = .ok (.ofRows k value.toNat, calls) ∧
      ∀ c ∈ calls, c.Fits (level + k) := by
  obtain ⟨output, heq, hdecode⟩ := decode_constant level hk h
  rw [heq]
  have hself : Call.Fits (level + k) ⟨level, k, value⟩ := ⟨rfl, hk, hv, fun _ => ⟨output, hdecode⟩⟩
  exact ⟨_, hdecode, List.forall_mem_singleton.mpr hself⟩

/-- Rows that are not all the same are decoded by their halves, and by one of them if they agree. -/
theorem decode_split (level : Nat) {k : Nat} (hk : k + 1 ≤ 6) {value low high : BitVec 64}
    (hvalue : ¬(value.toNat = 0 ∨ value.toNat = rowMask (k + 1)))
    (hlow : value &&& BitVec.ofNat 64 (rowMask k) = low)
    (hhigh : (value >>> 2 ^ k) &&& BitVec.ofNat 64 (rowMask k) = high)
    {e f : Equation} {calls more : List Call} (he : decode (level + 1) k low = .ok (e, calls))
    (hf : decode (level + 1) k high = .ok (f, more)) :
    decode level (k + 1) value = .ok (if low = high then (e, ⟨level, k + 1, value⟩ :: calls)
      else (.select (k + 1) e f, ⟨level, k + 1, value⟩ :: (calls ++ more))) := by
  obtain ⟨hzero, hones⟩ := not_or.mp hvalue
  have hk' : k ≤ 6 := Nat.le_of_succ_le hk
  have hhalf : 2 ^ k < 64 := Nat.pow_lt_pow_right (by decide) hk
  subst hlow hhigh
  rw [decode]
  dsimp only
  rw [if_neg fun h => hzero (congrArg BitVec.toNat h)]
  refine bind_eq_ok_iff.mpr ⟨_, mask_eq hk, ?_⟩
  rw [if_neg fun h => hones ((eq_ofNat_rowMask_iff hk).mp h)]
  refine bind_eq_ok_iff.mpr ⟨_, rows_eq (Nat.lt_of_le_of_lt hk' (by decide)), ?_⟩
  refine bind_eq_ok_iff.mpr ⟨_, mask_eq hk', ?_⟩
  refine bind_eq_ok_iff.mpr ⟨_, shiftRight_eq value hhalf, ?_⟩
  split
  · exact bind_eq_ok_iff.mpr ⟨_, he, rfl⟩
  · refine bind_eq_ok_iff.mpr ⟨_, he, ?_⟩
    exact bind_eq_ok_iff.mpr ⟨_, hf, rfl⟩

/-- A value that fits the rows of its width is decoded, and every call that is made fits. Both
halves are masked, so they fit the rows of theirs. -/
theorem decode_eq (level : Nat) {k : Nat} (hk : k ≤ 6) {value : BitVec 64}
    (hv : value.toNat ≤ rowMask k) :
    ∃ calls, decode level k value = .ok (.ofRows k value.toNat, calls) ∧
      ∀ c ∈ calls, c.Fits (level + k) := by
  induction k generalizing level value with
  | zero =>
    have hone : value.toNat ≤ 1 := hv
    have h : value.toNat = 0 ∨ value.toNat = rowMask 0 := Nat.le_one_iff_eq_zero_or_eq_one.mp hone
    exact exists_decode_constant level hk hv h
  | succ k ih =>
    by_cases h : value.toNat = 0 ∨ value.toNat = rowMask (k + 1)
    · exact exists_decode_constant level hk hv h
    · have hk' : k ≤ 6 := Nat.le_of_succ_le hk
      have hlow : (value &&& BitVec.ofNat 64 (rowMask k)).toNat = value.toNat &&& rowMask k :=
        toNat_and_rowMask hk' value
      have hhigh : ((value >>> 2 ^ k) &&& BitVec.ofNat 64 (rowMask k)).toNat =
          value.toNat >>> 2 ^ k &&& rowMask k := by
        rw [toNat_and_rowMask hk', BitVec.toNat_ushiftRight]
      obtain ⟨calls, he, hcalls⟩ := ih (level + 1) hk' (hlow.trans_le Nat.and_le_right)
      obtain ⟨more, hf, hmore⟩ := ih (level + 1) hk' (hhigh.trans_le Nat.and_le_right)
      have hlevel : level + 1 + k = level + (k + 1) := by omega
      have hself : Call.Fits (level + (k + 1)) ⟨level, k + 1, value⟩ := ⟨rfl, hk, hv, nofun⟩
      rw [hlevel] at hcalls hmore
      rw [decode_split level hk h rfl rfl he hf, Equation.ofRows_succ, ← hlow, ← hhigh]
      by_cases hsame : value &&& BitVec.ofNat 64 (rowMask k) =
          (value >>> 2 ^ k) &&& BitVec.ofNat 64 (rowMask k)
      · rw [if_pos hsame, if_pos (congrArg BitVec.toNat hsame)]
        exact ⟨_, rfl, List.forall_mem_cons.mpr ⟨hself, hcalls⟩⟩
      · rw [if_neg hsame, if_neg fun heq => hsame (BitVec.eq_of_toNat_eq heq)]
        exact ⟨_, rfl, List.forall_mem_cons.mpr ⟨hself, List.forall_mem_append.mpr ⟨hcalls, hmore⟩⟩⟩

/-- With a bit above its only row a value without inputs is not constant, and its predecessor would
be taken. -/
example : decode 0 0 2#64 = .error .underflow :=
  rfl

end Traps

namespace TableRun

open TruthTable (toWord)

/-- Any run goes through without a trap, and so does whatever is asked of the table that it gives:
its equation, the table at any width, the output in any row and the halves for any input. The calls
for the equation are at most six levels deep, each over at most six inputs and with no bit above its
rows, and without inputs a call returns at once. Any equation has an output in any row and a table
at any width, whatever pins it mentions. -/
theorem untrapped_of_run {run : TableRun} {t : TruthTable} (h : run.table? = some t) :
    Traps.outcome run = .ok (some t.toWord) ∧
      (∃ calls, Traps.toEquation t.toWord = .ok (t.toEquation, calls) ∧
        ∀ c ∈ calls, c.Fits t.width.inputs ∧ c.level ≤ 6) ∧
      (∀ w, Traps.resize t.toWord w = .ok (t.resize w).toWord) ∧
      (∀ row, Traps.bit t.toWord row = .ok (t.bit row)) ∧
      (∀ input, Traps.cofactors t.toWord input =
        .ok ((t.cofactors input).map (Prod.map toWord toWord))) ∧
      (∀ e w, Traps.ofEquation e w = .ok (e.toTable w).toWord) ∧
      ∀ row e, Traps.evaluate row e = .ok (e.evaluate row.toNat) := by
  refine ⟨?_, ?_, fun w => ?_, fun row => ?_, fun input => ?_, fun e w => ?_, Traps.evaluate_eq⟩
  · rw [Traps.outcome_eq, word?_eq, h, Option.map_some]
  · have hvalue : t.toWord.word.toNat ≤ rowMask t.width.inputs := by
      rw [t.toNat_toWord]
      exact Nat.le_pred_of_lt t.value_lt
    obtain ⟨calls, hdecode, hfits⟩ := Traps.decode_eq 0 t.width.le_max hvalue
    rw [t.toNat_toWord] at hdecode
    rw [Nat.zero_add] at hfits
    refine ⟨calls, hdecode, fun c hc => ⟨hfits c hc, ?_⟩⟩
    calc c.level ≤ c.level + c.width := Nat.le_add_right _ _
      _ = t.width.inputs := (hfits c hc).level_add_width
      _ ≤ 6 := t.width.le_max
  · rw [Traps.resize_eq, TableWord.resize_toWord]
  · rw [Traps.bit_eq, (TableWord.carries_toWord t).bit_eq]
  · rw [Traps.cofactors_eq, TableWord.cofactors_toWord]
  · rw [Traps.ofEquation_eq, TableWord.ofEquation_eq]

/-- The exclusive or of two inputs, grown to six inputs, is decoded by calls that reach down to
tables without inputs. -/
theorem untrapped_of_run_grown :
    Traps.outcome (resize (value 6#64 2) 6) = .ok (some ⟨0x6666666666666666#64, Width.six⟩) ∧
      ∃ calls, Traps.toEquation ⟨0x6666666666666666#64, Width.six⟩ =
          .ok (.or (.and (.inverted 2) (.plain 1)) (.and (.plain 2) (.inverted 1)), calls) ∧
        ∀ c ∈ calls, c.level ≤ 6 := by
  have h : (resize (value 6#64 2) 6).table? =
      some ⟨Width.six, 0x6666666666666666, by decide⟩ := by decide +kernel
  obtain ⟨hrun, ⟨calls, hdecode, hcalls⟩, -⟩ := untrapped_of_run h
  exact ⟨hrun, calls, hdecode, fun c hc => (hcalls c hc).2⟩

end TableRun

/-- The sixth level is reached. -/
example : (Traps.toEquation ⟨0x6666666666666666#64, Width.six⟩).map (fun r => r.2.map (·.level)) =
    .ok [0, 1, 2, 3, 4, 5, 6, 6, 5, 6, 6] :=
  rfl

end LutLogic
