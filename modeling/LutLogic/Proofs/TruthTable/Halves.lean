import LutLogic.Proofs.TruthTable.Words

/-!
# The halves of a truth table

Splitting a table on an input gives two tables of the same width, one for each value of the input.
`IsHalf` says what such a table is, row by row and without words: its row `r` is the row of the
table in which the input is held and everything else is as in `r`. `cofactors_eq_some_iff` says that
splitting gives the two halves and nothing else, for there is only one table that is the half of
another at a value (`IsHalf.unique`).

What is expected of a split then follows from rows with pins held. Holding the same pin again
changes nothing, so a half does not depend on its input; a row has one of the two values at the
input, so the halves put together give the table back; and two pins are held in either order, so a
table that is split twice has four quarters, whichever input comes first (`IsHalf.comm`).
-/

namespace LutLogic

namespace TruthTable

/-- A table is the half of another one in which input `A(i)` is held at `v`. -/
structure IsHalf (t : TruthTable) (i : Nat) (v : Bool) (half : TruthTable) : Prop where
  /-- The half has all inputs of the table, the held one too. -/
  width_eq : half.width = t.width
  /-- A row of the half is the row of the table with the input held. -/
  bit_eq : ∀ r < t.width.rows, half.bit r = t.bit (holdPin r i v)

/-- A table has one half for each value of an input. -/
theorem IsHalf.unique {t a b : TruthTable} {i : Nat} {v : Bool} (ha : t.IsHalf i v a)
    (hb : t.IsHalf i v b) : a = b := by
  refine ext_bit (ha.width_eq.trans hb.width_eq.symm) fun r hr => ?_
  have hrow : r < t.width.rows := ha.width_eq ▸ hr
  calc a.bit r = t.bit (holdPin r i v) := ha.bit_eq r hrow
    _ = b.bit r := (hb.bit_eq r hrow).symm

/-! ## Splitting -/

/-- There is nothing to split on an input that the table does not have. -/
theorem cofactors_eq_none_iff {t : TruthTable} {i : Nat} :
    t.cofactors i = none ↔ i = 0 ∨ t.width.inputs < i := by
  by_cases h : 1 ≤ i ∧ i ≤ t.width.inputs
  · obtain ⟨low, high, hsplit, -⟩ := t.cofactors_eq_some h
    rw [hsplit]
    refine iff_of_false nofun ?_
    omega
  · unfold cofactors
    rw [dif_neg h]
    refine iff_of_true rfl ?_
    omega

/-- Splitting on an input of the table gives the two halves, and nothing else. -/
theorem cofactors_eq_some_iff {t low high : TruthTable} {i : Nat} :
    t.cofactors i = some (low, high) ↔
      (1 ≤ i ∧ i ≤ t.width.inputs) ∧ t.IsHalf i false low ∧ t.IsHalf i true high := by
  by_cases h : 1 ≤ i ∧ i ≤ t.width.inputs
  · obtain ⟨low', high', hsplit, hlw, hhw, hbits⟩ := t.cofactors_eq_some h
    have hlow : t.IsHalf i false low' := ⟨hlw, fun r hr => (hbits r hr).1⟩
    have hhigh : t.IsHalf i true high' := ⟨hhw, fun r hr => (hbits r hr).2⟩
    rw [hsplit]
    constructor
    · intro heq
      cases heq
      exact ⟨h, hlow, hhigh⟩
    · intro hhalves
      rw [hlow.unique hhalves.2.1, hhigh.unique hhalves.2.2]
  · have hnone : t.cofactors i = none := dif_neg h
    rw [hnone]
    exact iff_of_false nofun fun hhalves => h hhalves.1

/-! ## Halves and their table -/

/-- A half is split on the inputs of its table: its halves are what the split gives. -/
theorem IsHalf.cofactors_eq {t half low high : TruthTable} {i j : Nat} {v : Bool}
    (hhalf : t.IsHalf i v half) (hj : 1 ≤ j ∧ j ≤ t.width.inputs) (hlow : half.IsHalf j false low)
    (hhigh : half.IsHalf j true high) : half.cofactors j = some (low, high) := by
  have hin : 1 ≤ j ∧ j ≤ half.width.inputs := hhalf.width_eq.symm ▸ hj
  exact cofactors_eq_some_iff.mpr ⟨hin, hlow, hhigh⟩

/-- A half has halves at each input of its table. -/
theorem IsHalf.exists_halves {t half : TruthTable} {i j : Nat} {v : Bool}
    (hhalf : t.IsHalf i v half) (hj : 1 ≤ j ∧ j ≤ t.width.inputs) :
    ∃ low high, half.IsHalf j false low ∧ half.IsHalf j true high := by
  have hin : 1 ≤ j ∧ j ≤ half.width.inputs := hhalf.width_eq.symm ▸ hj
  obtain ⟨low, high, hsplit, -⟩ := half.cofactors_eq_some hin
  exact ⟨low, high, (cofactors_eq_some_iff.mp hsplit).2⟩

/-- A half of a table is its own half at either value of the input. -/
theorem IsHalf.isHalf_self {t half : TruthTable} {i : Nat} {v : Bool}
    (h : 1 ≤ i ∧ i ≤ t.width.inputs) (hhalf : t.IsHalf i v half) (u : Bool) :
    half.IsHalf i u half := by
  refine ⟨rfl, fun r hr => ?_⟩
  have hrow : r < t.width.rows := hhalf.width_eq ▸ hr
  have hheld : holdPin r i u < t.width.rows := holdPin_lt hrow h.1 h.2 u
  -- Whatever the input was held at, in the table it is held at `v` after that.
  calc half.bit r = t.bit (holdPin r i v) := hhalf.bit_eq r hrow
    _ = t.bit (holdPin (holdPin r i u) i v) := by rw [holdPin_holdPin]
    _ = half.bit (holdPin r i u) := (hhalf.bit_eq _ hheld).symm

/-- A half of a table does not depend on the input that is held. -/
theorem IsHalf.dependsOn_eq_false {t half : TruthTable} {i : Nat} {v : Bool}
    (h : 1 ≤ i ∧ i ≤ t.width.inputs) (hhalf : t.IsHalf i v half) : half.dependsOn i = false := by
  have hself := hhalf.isHalf_self h
  have hsplit : half.cofactors i = some (half, half) :=
    hhalf.cofactors_eq h (hself false) (hself true)
  unfold dependsOn
  rw [hsplit]
  exact bne_self_eq_false half

/-- A row of a table is in the half of the value that the input has in it. -/
theorem bit_eq_of_isHalf {t low high : TruthTable} {i r : Nat} (hlow : t.IsHalf i false low)
    (hhigh : t.IsHalf i true high) (hr : r < t.width.rows) :
    t.bit r = if r.testBit (i - 1) then high.bit r else low.bit r := by
  rw [hlow.bit_eq r hr, hhigh.bit_eq r hr]
  split
  · next hset => rw [holdPin_self hset]
  · next hclear => rw [holdPin_self (Bool.eq_false_of_not_eq_true hclear)]

/-- The half of a half is a half of the other half: two inputs are held in either order. -/
theorem IsHalf.comm {t a b c : TruthTable} {i j : Nat} {u v : Bool}
    (hi : 1 ≤ i ∧ i ≤ t.width.inputs) (hj : 1 ≤ j ∧ j ≤ t.width.inputs) (hne : i ≠ j)
    (ha : t.IsHalf i u a) (hb : a.IsHalf j v b) (hc : t.IsHalf j v c) : c.IsHalf i u b := by
  refine ⟨(hb.width_eq.trans ha.width_eq).trans hc.width_eq.symm, fun r hr => ?_⟩
  have hrow : r < t.width.rows := hc.width_eq ▸ hr
  have hrowa : r < a.width.rows := ha.width_eq.symm ▸ hrow
  -- On both ways the row is that of `t` with the two inputs held.
  calc b.bit r = a.bit (holdPin r j v) := hb.bit_eq r hrowa
    _ = t.bit (holdPin (holdPin r j v) i u) := ha.bit_eq _ (holdPin_lt hrow hj.1 hj.2 v)
    _ = t.bit (holdPin (holdPin r i u) j v) := by rw [holdPin_comm hj.1 hi.1 hne.symm]
    _ = c.bit (holdPin r i u) := (hc.bit_eq _ (holdPin_lt hrow hi.1 hi.2 u)).symm

/-- A table that is split on two inputs has four quarters, the same in either order: the quarter
with the inputs at two values is a half of the half at either value. -/
theorem exists_quarters {t low high low' high' : TruthTable} {i j : Nat} (hne : i ≠ j)
    (hi : t.cofactors i = some (low, high)) (hj : t.cofactors j = some (low', high')) :
    ∃ ll lh hl hh, low.cofactors j = some (ll, lh) ∧ high.cofactors j = some (hl, hh) ∧
      low'.cofactors i = some (ll, hl) ∧ high'.cofactors i = some (lh, hh) := by
  obtain ⟨hini, hlow, hhigh⟩ := cofactors_eq_some_iff.mp hi
  obtain ⟨hinj, hlow', hhigh'⟩ := cofactors_eq_some_iff.mp hj
  -- In the name of a quarter the first letter is for the value of `A(i)`, the second for `A(j)`.
  obtain ⟨ll, lh, hll, hlh⟩ := hlow.exists_halves hinj
  obtain ⟨hl, hh, hhl, hhh⟩ := hhigh.exists_halves hinj
  refine ⟨ll, lh, hl, hh, hlow.cofactors_eq hinj hll hlh, hhigh.cofactors_eq hinj hhl hhh, ?_, ?_⟩
  · exact hlow'.cofactors_eq hini (hlow.comm hini hinj hne hll hlow')
      (hhigh.comm hini hinj hne hhl hlow')
  · exact hhigh'.cofactors_eq hini (hlow.comm hini hinj hne hlh hhigh')
      (hhigh.comm hini hinj hne hhh hhigh')

/-- A table is split on each of its inputs and on no other. Both halves have its width, and in row
`r` the output that the table has in the row with the input held at 0, or at 1; no other two tables
are the halves. They do not depend on the input, they give the table back if the input selects
between them, and splitting on two inputs gives the same four tables in either order. In words of 64
bits the split is the same, so no row is lost and none is added. -/
theorem cofactors_split (t : TruthTable) (i : Nat) :
    (t.cofactors i = none ↔ i = 0 ∨ t.width.inputs < i) ∧
      (∀ low high, t.cofactors i = some (low, high) ↔
        (1 ≤ i ∧ i ≤ t.width.inputs) ∧ low.width = t.width ∧ high.width = t.width ∧
          ∀ r < 2 ^ t.width.inputs,
            low.bit r = t.bit (holdPin r i false) ∧ high.bit r = t.bit (holdPin r i true)) ∧
      (∀ low high, t.cofactors i = some (low, high) →
        low.dependsOn i = false ∧ high.dependsOn i = false ∧
          (∀ r < 2 ^ t.width.inputs,
            t.bit r = if r.testBit (i - 1) then high.bit r else low.bit r) ∧
          ∀ j low' high', j ≠ i → t.cofactors j = some (low', high') →
            ∃ ll lh hl hh, low.cofactors j = some (ll, lh) ∧ high.cofactors j = some (hl, hh) ∧
              low'.cofactors i = some (ll, hl) ∧ high'.cofactors i = some (lh, hh)) ∧
      t.toWord.cofactors i = (t.cofactors i).map (Prod.map toWord toWord) := by
  refine ⟨cofactors_eq_none_iff, fun low high => ?_, fun low high hsplit => ?_,
    TableWord.cofactors_toWord t i⟩
  · rw [cofactors_eq_some_iff]
    refine and_congr_right fun _ => ⟨?_, ?_⟩
    · rintro ⟨hlow, hhigh⟩
      exact ⟨hlow.width_eq, hhigh.width_eq, fun r hr => ⟨hlow.bit_eq r hr, hhigh.bit_eq r hr⟩⟩
    · rintro ⟨hlw, hhw, hbits⟩
      exact ⟨⟨hlw, fun r hr => (hbits r hr).1⟩, ⟨hhw, fun r hr => (hbits r hr).2⟩⟩
  · obtain ⟨hin, hlow, hhigh⟩ := cofactors_eq_some_iff.mp hsplit
    exact ⟨hlow.dependsOn_eq_false hin, hhigh.dependsOn_eq_false hin,
      fun r hr => bit_eq_of_isHalf hlow hhigh hr,
      fun j low' high' hne hsplit' => exists_quarters hne.symm hsplit hsplit'⟩

/-- The majority of three inputs. -/
def majority : TruthTable := ofValue 0xE8 ⟨3, by decide, by decide⟩

/-- The majority of three inputs is the conjunction of the other two with the first one at 0 and
their disjunction with it at 1. Split on the third input as well, in either order, it has the second
input in both middle quarters. -/
theorem cofactors_split_majority :
    ∃ low high low' high', majority.cofactors 1 = some (low, high) ∧
      majority.cofactors 3 = some (low', high') ∧
      low.value = 0xC0 ∧ high.value = 0xFC ∧ low.dependsOn 1 = false ∧
      ∃ ll lh hl hh, low.cofactors 3 = some (ll, lh) ∧ high.cofactors 3 = some (hl, hh) ∧
        low'.cofactors 1 = some (ll, hl) ∧ high'.cofactors 1 = some (lh, hh) ∧
        lh.value = 0xCC ∧ hl.value = 0xCC := by
  have hsplit : majority.cofactors 1 =
      some (ofValue 0xC0 majority.width, ofValue 0xFC majority.width) := by
    decide
  have hsplit' : majority.cofactors 3 =
      some (ofValue 0x88 majority.width, ofValue 0xEE majority.width) := by
    decide
  obtain ⟨hfree, -, -, hquarters⟩ := (cofactors_split majority 1).2.2.1 _ _ hsplit
  obtain ⟨ll, lh, hl, hh, hlow, hhigh, hlow', hhigh'⟩ := hquarters 3 _ _ (by decide) hsplit'
  -- The middle quarters are found in the split of the two halves.
  have hlh : lh = ofValue 0xCC majority.width := by
    have hquarter : (ofValue 0xC0 majority.width).cofactors 3 =
        some (ofValue 0 majority.width, ofValue 0xCC majority.width) := by
      decide
    rw [hquarter] at hlow
    cases hlow
    rfl
  have hhl : hl = ofValue 0xCC majority.width := by
    have hquarter : (ofValue 0xFC majority.width).cofactors 3 =
        some (ofValue 0xCC majority.width, ofValue 0xFF majority.width) := by
      decide
    rw [hquarter] at hhigh
    cases hhigh
    rfl
  exact ⟨_, _, _, _, hsplit, hsplit', by decide, by decide, hfree, ll, lh, hl, hh, hlow, hhigh,
    hlow', hhigh', hlh ▸ by decide, hhl ▸ by decide⟩

end TruthTable

end LutLogic
