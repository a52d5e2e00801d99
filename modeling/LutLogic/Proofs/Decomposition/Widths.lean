import LutLogic.Proofs.Decomposition.Resize
import LutLogic.Proofs.TruthTable.Words
import Mathlib.Order.Bounds.Basic

/-!
# Tables at every width

Two ways lead to a table at a given number of inputs: resizing a table, and encoding an equation.
Both judge the number first. A table that is resized in place is therefore whole or untouched
(`run_resizeInPlace`), and an equation is refused for its lowest bad pin only at a number of inputs
that is a width (`toTableAt_eq_error_iff`).

`TruthTable.bit_resize` has the rows of a table that is resized once, and
`TruthTable.resize_resize_eq_iff` says when resizing twice is the same as resizing once, in terms of
the inputs that matter. Encoding at two widths comes down to the same question, since an equation
over `A1` to `A6` is encoded at any width by resizing its table at six inputs
(`resize_toTable_eq_iff`).
-/

namespace LutLogic

/-- An input is required exactly if the table depends on it. -/
theorem TruthTable.mem_requiredInputs_iff_dependsOn {t : TruthTable} {i : Nat} :
    i ∈ t.requiredInputs ↔ t.dependsOn i = true :=
  mem_requiredInputs.trans dependsOn_iff.symm

/-- The inputs that matter are bounded exactly if the table depends on none of its inputs above. -/
theorem TruthTable.forall_requiredInputs_le_iff {t : TruthTable} {n : Nat} :
    (∀ i ∈ t.requiredInputs, i ≤ n) ↔
      ∀ i, n < i → i ≤ t.width.inputs → t.dependsOn i = false := by
  constructor
  · intro h i hn _
    refine Bool.eq_false_of_not_eq_true fun hdepends => ?_
    have hle := h i (mem_requiredInputs_iff_dependsOn.mpr hdepends)
    omega
  · intro h i hi
    refine Nat.le_of_not_lt fun hn => ?_
    have hfree := h i hn (mem_requiredInputs.mp hi).1.2
    rw [mem_requiredInputs_iff_dependsOn.mp hi] at hfree
    cases hfree

namespace TruthTable

/-! ## Resizing -/

/-- In place a table is replaced by the resized one, or kept where the number is refused. -/
theorem run_resizeInPlace (t : TruthTable) (count : Nat) :
    (resizeInPlace count).run t =
      match t.resizeAt count with
      | .ok u => .ok () u
      | .error e => .error e t := by
  unfold resizeInPlace resizeAt
  cases Width.ofNat count <;> rfl

/-- At the number of inputs of a width a table is resized. -/
theorem resizeAt_inputs (t : TruthTable) (w : Width) :
    t.resizeAt w.inputs = .ok (t.resize w) := by
  rw [resizeAt, Width.ofNat_inputs]
  rfl

/-- Resizing to one width and then to another one is doing both. -/
theorem resizeAt_bind_resizeAt (t : TruthTable) (v w : Width) :
    (t.resizeAt v.inputs >>= fun u => u.resizeAt w.inputs) = .ok ((t.resize v).resize w) := by
  rw [resizeAt_inputs]
  exact resizeAt_inputs _ _

/-- Two resizings are one exactly if their tables are the same. -/
theorem resizeAt_bind_resizeAt_eq_iff {t : TruthTable} {v w : Width} :
    (t.resizeAt v.inputs >>= fun u => u.resizeAt w.inputs) = t.resizeAt w.inputs ↔
      (t.resize v).resize w = t.resize w := by
  rw [resizeAt_bind_resizeAt, resizeAt_inputs, Except.ok.injEq]

/-- Only a number that is no width is refused, and it is named. -/
theorem resizeAt_eq_error_iff {t : TruthTable} {count : Nat} {e : LutError} :
    t.resizeAt count = .error e ↔ ¬(1 ≤ count ∧ count ≤ 6) ∧ e = .inputCount count :=
  map_eq_error_iff.trans Width.ofNat_eq_error_iff

/-- In place a number of inputs is reported, and the table kept, exactly if it is no width. -/
theorem run_resizeInPlace_eq_error_iff {t : TruthTable} {count : Nat} :
    (resizeInPlace count).run t = .error (.inputCount count) t ↔ ¬(1 ≤ count ∧ count ≤ 6) := by
  rw [run_resizeInPlace]
  constructor
  · intro h
    cases hat : t.resizeAt count with
    | ok u =>
      rw [hat] at h
      cases h
    | error e => exact (resizeAt_eq_error_iff.mp hat).1
  · intro hcount
    rw [resizeAt_eq_error_iff.mpr ⟨hcount, rfl⟩]

/-- A number of inputs outside one to six is refused and leaves the table as it is. At every width
the table has its rows repeated or cut off: row `r` of the result is row `r` modulo the number of
rows of the table. A width on the way changes nothing, for all tables of a width, exactly if it is
not below both this width and the one that is asked for, so a table that has grown shrinks back to
itself; and for one table exactly if the inputs that matter to the result are among those of the
width on the way. In words of 64 bits, where a table that grows is not masked, resizing is the
same. -/
theorem resize_exact (t : TruthTable) :
    (∀ count, (resizeInPlace count).run t = .error (.inputCount count) t ↔
        ¬(1 ≤ count ∧ count ≤ 6)) ∧
      (∀ w : Width, (resizeInPlace w.inputs).run t = .ok () (t.resize w) ∧
        t.resizeAt w.inputs = .ok (t.resize w) ∧ (t.resize w).width = w ∧
        ∀ r < 2 ^ w.inputs, (t.resize w).bit r = t.bit (r % 2 ^ t.width.inputs)) ∧
      (∀ v w : Width, min t.width.inputs w.inputs ≤ v.inputs ↔
        ∀ u : TruthTable, u.width = t.width →
          (u.resizeAt v.inputs >>= fun s => s.resizeAt w.inputs) = u.resizeAt w.inputs) ∧
      (∀ v : Width, t.width.inputs ≤ v.inputs →
        (t.resizeAt v.inputs >>= fun s => s.resizeAt t.width.inputs) = .ok t) ∧
      (∀ v w : Width, (t.resizeAt v.inputs >>= fun s => s.resizeAt w.inputs) = t.resizeAt w.inputs ↔
        ∀ i ∈ (t.resize w).requiredInputs, i ≤ v.inputs) ∧
      ∀ w : Width, t.toWord.resize w = (t.resize w).toWord := by
  refine ⟨fun count => run_resizeInPlace_eq_error_iff,
    fun w => ⟨?_, t.resizeAt_inputs w, rfl, fun r hr => bit_resize_of_lt hr⟩,
    fun v w => ?_, fun v hv => ?_, fun v w => ?_, TableWord.resize_toWord t⟩
  · rw [run_resizeInPlace, resizeAt_inputs]
  · simp only [resizeAt_bind_resizeAt_eq_iff]
    exact forall_resize_resize_iff.symm
  · rw [resizeAt_bind_resizeAt, t.resize_resize (by omega), resize_self]
  · rw [resizeAt_bind_resizeAt_eq_iff, resize_resize_eq_iff]

/-- The exclusive or of two inputs. -/
def parity : TruthTable := ofValue 6 ⟨2, by decide, by decide⟩

/-- The exclusive or of two inputs is not resized to seven inputs and stays as it is. It grows to
five inputs and shrinks back, but grown to three inputs by way of one input it is another table:
there it would be the first input. -/
theorem resize_exact_parity :
    (resizeInPlace 7).run parity = .error (.inputCount 7) parity ∧
      (parity.resizeAt 5 >>= fun s => s.resizeAt 2) = .ok parity ∧
      (parity.resizeAt 1 >>= fun s => s.resizeAt 3) ≠ parity.resizeAt 3 := by
  obtain ⟨hrefused, -, -, hback, hlost, -⟩ := resize_exact parity
  refine ⟨(hrefused 7).mpr (by decide), hback ⟨5, by decide, by decide⟩ (by decide),
    fun hsame => ?_⟩
  have hle := (hlost ⟨1, by decide, by decide⟩ ⟨3, by decide, by decide⟩).mp hsame 2 (by decide)
  exact absurd hle (by decide)

end TruthTable

namespace Equation

/-! ## Encoding -/

/-- The pin that is reported is the lowest one outside `A1` to `A6`. -/
theorem badInput?_eq_some_iff {e : Equation} {i : Nat} :
    e.badInput? = some i ↔ IsLeast {j | j ∈ e.usedInputs ∧ ¬(1 ≤ j ∧ j ≤ 6)} i := by
  have hbad (j : Nat) : (!decide (minInputs ≤ j ∧ j ≤ maxInputs)) = true ↔ ¬(1 ≤ j ∧ j ≤ 6) := by
    rw [Bool.not_eq_true', decide_eq_false_iff_not]
    exact Iff.rfl
  -- The pins are searched in ascending order.
  have hleast {k : Nat} (h : e.badInput? = some k) :
      IsLeast {j | j ∈ e.usedInputs ∧ ¬(1 ≤ j ∧ j ≤ 6)} k := by
    obtain ⟨hk, before, after, hsplit, hbefore⟩ := List.find?_eq_some_iff_append.mp h
    have hmem : k ∈ e.usedInputs := by
      rw [hsplit]
      exact List.mem_append_right before List.mem_cons_self
    refine ⟨⟨hmem, (hbad k).mp hk⟩, ?_⟩
    rintro j ⟨hj, hout⟩
    have hsorted := e.pairwise_usedInputs
    rw [hsplit] at hj hsorted
    rcases List.mem_append.mp hj with hj | hj
    · have hgood := hbefore j hj
      rw [(hbad j).mpr hout] at hgood
      cases hgood
    · rcases List.mem_cons.mp hj with rfl | hj
      · exact Nat.le_refl _
      · have htail := (List.pairwise_append.mp hsorted).2.1
        exact Nat.le_of_lt (List.rel_of_pairwise_cons htail hj)
  constructor
  · exact hleast
  · intro h
    cases hfind : e.badInput? with
    | none => exact absurd (badInput?_eq_none_iff.mp hfind i h.1.1) h.1.2
    | some k => rw [(hleast hfind).unique h]

/-- An equation is refused for its lowest pin outside `A1` to `A6`. -/
theorem checked_eq_error_iff {e : Equation} {err : LutError} :
    e.checked = .error err ↔
      ∃ i, IsLeast {j | j ∈ e.usedInputs ∧ ¬(1 ≤ j ∧ j ≤ 6)} i ∧ err = .inputIndex i := by
  simp only [← badInput?_eq_some_iff]
  unfold checked
  cases e.badInput? with
  | none => simp
  | some i => simp [eq_comm]

/-- At a number of inputs an equation is refused for the number, and at a width for a pin. -/
theorem toTableAt_eq_error_iff {e : Equation} {count : Nat} {err : LutError} :
    e.toTableAt count = .error err ↔
      ¬(1 ≤ count ∧ count ≤ 6) ∧ err = .inputCount count ∨
        (1 ≤ count ∧ count ≤ 6) ∧
          ∃ i, IsLeast {j | j ∈ e.usedInputs ∧ ¬(1 ≤ j ∧ j ≤ 6)} i ∧ err = .inputIndex i := by
  rw [← Width.ofNat_eq_error_iff, ← checked_eq_error_iff, toTableAt, bind_eq_error_iff]
  refine or_congr_right ⟨?_, ?_⟩
  · rintro ⟨w, hw, h⟩
    have hinputs := Width.ofNat_eq_ok_iff.mp hw
    refine ⟨hinputs ▸ ⟨w.min_le, w.le_max⟩, ?_⟩
    obtain hrefused | ⟨d, -, hd⟩ := bind_eq_error_iff.mp h
    · exact hrefused
    · cases hd
  · rintro ⟨hcount, h⟩
    refine ⟨⟨count, hcount.1, hcount.2⟩, Width.ofNat_eq_ok_iff.mpr rfl, ?_⟩
    exact bind_eq_error_iff.mpr (.inl h)

/-- A table is that of an equation at its width exactly if it has the output of the equation in
every row. -/
theorem eq_toTable_iff {e : Equation} {t : TruthTable} :
    e.toTable t.width = t ↔ ∀ r < 2 ^ t.width.inputs, t.bit r = e.evaluate r := by
  constructor
  · intro h r hr
    rw [← bit_toTable_of_lt (w := t.width) hr, h]
  · intro h
    exact TruthTable.ext_bit rfl fun r hr => (bit_toTable_of_lt hr).trans (h r hr).symm

/-- An equation over `A1` to `A6` is encoded, at the number of inputs of a width, by the table that
has its output in every row. -/
theorem toTableAt_eq_ok_iff {e : Equation} {count : Nat} {t : TruthTable} :
    e.toTableAt count = .ok t ↔ t.width.inputs = count ∧ e.Within maxInputs ∧
      ∀ r < 2 ^ count, t.bit r = e.evaluate r := by
  constructor
  · intro h
    obtain ⟨w, hw, h⟩ := bind_eq_ok_iff.mp h
    obtain ⟨d, hd, ht⟩ := bind_eq_ok_iff.mp h
    obtain ⟨rfl, hin⟩ := of_checked hd
    obtain rfl := Width.ofNat_eq_ok_iff.mp hw
    cases ht
    exact ⟨rfl, hin, fun r hr => bit_toTable_of_lt hr⟩
  · rintro ⟨rfl, hin, hbits⟩
    rw [hin.toTableAt, Width.ofNat_inputs]
    exact congrArg Except.ok (eq_toTable_iff.mpr hbits)

/-- Resizing the table of an equation over `A1` to `A6` is encoding the equation at the other width
exactly if the inputs that matter there are inputs of the first width. -/
theorem resize_toTable_eq_iff {e : Equation} (h : e.Within maxInputs) {v w : Width} :
    (e.toTable v).resize w = e.toTable w ↔ ∀ i ∈ (e.toTable w).requiredInputs, i ≤ v.inputs := by
  -- Both tables are the one at six inputs, resized.
  have hsix : e.Within Width.six.inputs := h
  rw [← hsix.resize_toTable v, ← hsix.resize_toTable w]
  exact TruthTable.resize_resize_eq_iff

/-- Encoding an equation at a number of inputs is refused for the number if it is no width, then for
the lowest pin outside `A1` to `A6`, and for nothing else. Otherwise it gives the one table of this
width that has the output of the equation in every row. Of the tables at two widths, the one at the
lower width is the other one resized, and the one at the higher width is so exactly if it depends on
none of the inputs that the other one does not have. -/
theorem toTableAt_exact (e : Equation) :
    (∀ count err, e.toTableAt count = .error err ↔
        ¬(1 ≤ count ∧ count ≤ 6) ∧ err = .inputCount count ∨
          (1 ≤ count ∧ count ≤ 6) ∧
            ∃ i, IsLeast {j | j ∈ e.usedInputs ∧ ¬(1 ≤ j ∧ j ≤ 6)} i ∧ err = .inputIndex i) ∧
      (∀ count t, e.toTableAt count = .ok t ↔ t.width.inputs = count ∧
        (∀ i ∈ e.usedInputs, 1 ≤ i ∧ i ≤ 6) ∧ ∀ r < 2 ^ count, t.bit r = e.evaluate r) ∧
      ∀ m n tm tn, e.toTableAt m = .ok tm → e.toTableAt n = .ok tn →
        (n ≤ m → tm.resizeAt n = .ok tn) ∧
          (m < n → (tm.resizeAt n = .ok tn ↔ ∀ i, m < i → i ≤ n → tn.dependsOn i = false)) := by
  refine ⟨fun _ _ => toTableAt_eq_error_iff, fun _ _ => toTableAt_eq_ok_iff,
    fun m n tm tn hm hn => ?_⟩
  obtain ⟨rfl, hin, hbitsm⟩ := toTableAt_eq_ok_iff.mp hm
  obtain ⟨rfl, -, hbitsn⟩ := toTableAt_eq_ok_iff.mp hn
  have hresize : tm.resizeAt tn.width.inputs = .ok tn ↔
      ∀ i ∈ tn.requiredInputs, i ≤ tm.width.inputs := by
    rw [TruthTable.resizeAt_inputs, Except.ok.injEq, ← eq_toTable_iff.mpr hbitsm,
      ← eq_toTable_iff.mpr hbitsn]
    exact resize_toTable_eq_iff hin
  refine ⟨fun hle => ?_, fun _ => ?_⟩
  · refine hresize.mpr fun i hi => ?_
    exact Nat.le_trans (TruthTable.mem_requiredInputs.mp hi).1.2 hle
  · exact hresize.trans TruthTable.forall_requiredInputs_le_iff

/-- The exclusive or of the first and the third input has at two inputs the table of the first one.
This is its table at three inputs resized, but not the other way round, since the third input
matters. -/
theorem toTableAt_exact_parity :
    ∃ tm tn, (xor (plain 1) (plain 3)).toTableAt 2 = .ok tm ∧
      (xor (plain 1) (plain 3)).toTableAt 3 = .ok tn ∧ tn.resizeAt 2 = .ok tm ∧
      tm.resizeAt 3 ≠ .ok tn := by
  have hm : (xor (plain 1) (plain 3)).toTableAt 2 =
      .ok (.ofValue 0xA ⟨2, by decide, by decide⟩) := by decide
  have hn : (xor (plain 1) (plain 3)).toTableAt 3 =
      .ok (.ofValue 0x5A ⟨3, by decide, by decide⟩) := by decide
  obtain ⟨-, -, hwidths⟩ := toTableAt_exact (xor (plain 1) (plain 3))
  refine ⟨_, _, hm, hn, (hwidths 3 2 _ _ hn hm).1 (by decide), fun hsame => ?_⟩
  have hfree := ((hwidths 2 3 _ _ hm hn).2 (by decide)).mp hsame 3 (by decide) (by decide)
  exact absurd hfree (by decide)

end Equation

end LutLogic
