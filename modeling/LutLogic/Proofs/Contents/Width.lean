import LutLogic.Proofs.Contents.Canonical
import LutLogic.Proofs.Decomposition.Resize

/-!
# Contents at another width

A change of the width keeps contents that have this width already and resizes the table of all
others, whose equation is then derived from the resized table. `IsResized` says so once, and what a
change of the width does to rows, to the inputs that matter and to a later change of the width
follows from it and the rules for tables.

Reduced contents are the table of a packed equation, whose pins are among those of the width. At
every other width they are therefore the table of the same packed equation
(`IsResized.table_of_reduce`), and where there is room for its pins it is also decoded to it. So
narrowing them loses nothing, and it makes no difference whether contents are reduced before they
are widened or afterwards.
-/

namespace LutLogic

/-- A wider table has the same packed equation. -/
theorem TruthTable.packed_resize_of_le (t : TruthTable) {w : Width}
    (h : t.width.inputs ≤ w.inputs) : (t.resize w).packed = t.packed := by
  rw [packed, t.toEquation_resize_of_le h, t.requiredInputs_resize_of_le h, packed]

namespace Contents

/-- Contents `d` are what a change of the width makes of contents `c`. -/
structure IsResized (c d : Contents) : Prop where
  /-- The changed contents are coherent. -/
  coherent : d.Coherent
  /-- The table is resized. -/
  table_eq : d.table = c.table.resize d.width
  /-- At their own width contents are kept as they are. -/
  eq_of_width : d.width = c.width → d = c
  /-- At another width the equation is derived from the table. -/
  equation_eq : d.width ≠ c.width → d.equation = d.table.toEquation

/-- A change of the width to a count of one to six is made. -/
theorem exists_setWidth (c : Contents) {count : Nat} (h1 : 1 ≤ count) (h6 : count ≤ 6) :
    ∃ d, c.setWidth count = .ok d := by
  have hcount : Width.ofNat count = .ok ⟨count, h1, h6⟩ := Width.ofNat_inputs ⟨count, h1, h6⟩
  rw [setWidth_eq, hcount]
  exact ⟨_, rfl⟩

/-- A change of the width that is made gives the count that was asked for, and what the contents are
at this width. -/
theorem Coherent.of_setWidth {c d : Contents} (h : c.Coherent) {count : Nat}
    (hd : c.setWidth count = .ok d) : d.width.inputs = count ∧ IsResized c d := by
  have hcoh : d.Coherent := h.change? (r := .width count) hd
  rw [setWidth_eq] at hd
  obtain ⟨w, hw, heq⟩ := map_eq_ok_iff.mp hd
  have hcount : w.inputs = count := Width.ofNat_eq_ok_iff.mp hw
  by_cases hsame : w = c.width
  · rw [if_pos hsame] at heq
    subst heq
    have htable : c.table = c.table.resize c.width := by
      rw [← h.width_table, TruthTable.resize_self]
    exact ⟨by rw [← hsame, hcount], h, htable, fun _ => rfl, fun hne => absurd rfl hne⟩
  · rw [if_neg hsame] at heq
    subst heq
    exact ⟨hcount, hcoh, rfl, fun heq => absurd heq hsame, fun _ => rfl⟩

/-! ## Rows, inputs that matter, and a width on the way -/

/-- In the rows of the new width both forms have the output that the contents had in the row of the
old width that agrees on its pins. -/
theorem IsResized.bit_of_lt {c d : Contents} (hc : c.Coherent) (h : IsResized c d) {r : Nat}
    (hr : r < 2 ^ d.width.inputs) :
    d.table.bit r = c.table.bit (r % 2 ^ c.width.inputs) ∧
      d.equation.evaluate r = c.table.bit (r % 2 ^ c.width.inputs) := by
  have hbit : d.table.bit r = c.table.bit (r % 2 ^ c.width.inputs) := by
    rw [h.table_eq, TruthTable.bit_resize_of_lt hr, hc.width_table, Width.rows_eq]
  refine ⟨hbit, ?_⟩
  rw [← h.coherent.bit_table_of_lt hr, hbit]

/-- At a larger width the same inputs matter. -/
theorem IsResized.requiredInputs_of_le {c d : Contents} (hc : c.Coherent) (h : IsResized c d)
    (hle : c.width.inputs ≤ d.width.inputs) : d.requiredInputs = c.requiredInputs := by
  rw [← hc.width_table] at hle
  rw [requiredInputs, h.table_eq, c.table.requiredInputs_resize_of_le hle, requiredInputs]

/-- A width on the way leaves no trace in the table, unless it is below both the width before and
the width after. -/
theorem IsResized.table_eq_of_min_le {c d e f : Contents} (hc : c.Coherent) (hd : IsResized c d)
    (he : IsResized d e) (hf : IsResized c f) (hef : e.width = f.width)
    (hmin : min c.width.inputs e.width.inputs ≤ d.width.inputs) : e.table = f.table := by
  rw [← hc.width_table] at hmin
  rw [he.table_eq, hd.table_eq, c.table.resize_resize hmin, hf.table_eq, hef]

/-- However contents were built and whatever was done with them, their width can be changed to one
to six and to nothing else. In every row of the new width both forms then have the output that the
contents had in the row of the old width that agrees on its pins: added pins do not matter, and
removed ones are held at 0. Growing keeps the pins that matter, and no pin matters that did not
before. Two changes, one after the other, are as good as the second alone unless the width on the
way is below both the width before and the width after; so growing and shrinking back restores the
contents. -/
theorem setWidth_of_reachable {c : Contents} (h : c.Reachable) :
    (∀ count, (∃ d, c.setWidth count = .ok d) ↔ 1 ≤ count ∧ count ≤ 6) ∧
      (∀ count d, c.setWidth count = .ok d →
        d.width.inputs = count ∧
          (∀ r < 2 ^ count, d.table.bit r = c.table.bit (r % 2 ^ c.width.inputs) ∧
            d.equation.evaluate r = c.table.bit (r % 2 ^ c.width.inputs)) ∧
          (c.width.inputs ≤ count → d.requiredInputs = c.requiredInputs) ∧
          ∀ i ∈ d.requiredInputs, i ∈ c.requiredInputs ∧ 1 ≤ i ∧ i ≤ count) ∧
      (∀ a b, 1 ≤ a ∧ a ≤ 6 → 1 ≤ b ∧ b ≤ 6 → min c.width.inputs b ≤ a →
        ∃ d e f, c.setWidth a = .ok d ∧ d.setWidth b = .ok e ∧ c.setWidth b = .ok f ∧
          e.sameFunction f = true) ∧
      ∀ a, c.width.inputs ≤ a ∧ a ≤ 6 →
        ∃ d e, c.setWidth a = .ok d ∧ d.setWidth c.width.inputs = .ok e ∧
          e.sameFunction c = true := by
  have hcoh := h.coherent
  have hmin : 1 ≤ c.width.inputs := c.width.min_le
  have hmax : c.width.inputs ≤ 6 := c.width.le_max
  have htwice : ∀ a b, 1 ≤ a ∧ a ≤ 6 → 1 ≤ b ∧ b ≤ 6 → min c.width.inputs b ≤ a →
      ∃ d e f, c.setWidth a = .ok d ∧ d.setWidth b = .ok e ∧ c.setWidth b = .ok f ∧
        e.sameFunction f = true := by
    intro a b ha hb hle
    obtain ⟨d, hd⟩ := c.exists_setWidth ha.1 ha.2
    obtain ⟨e, he⟩ := d.exists_setWidth hb.1 hb.2
    obtain ⟨f, hf⟩ := c.exists_setWidth hb.1 hb.2
    obtain ⟨hda, hcd⟩ := hcoh.of_setWidth hd
    obtain ⟨heb, hde⟩ := hcd.coherent.of_setWidth he
    obtain ⟨hfb, hcf⟩ := hcoh.of_setWidth hf
    have hef : e.width = f.width := Width.ext_inputs (heb.trans hfb.symm)
    have htable : e.table = f.table :=
      hcd.table_eq_of_min_le hcoh hde hcf hef (by rw [hda, heb]; exact hle)
    exact ⟨d, e, f, hd, he, hf, sameFunction_iff.mpr htable⟩
  refine ⟨fun count => ⟨?_, fun hcount => c.exists_setWidth hcount.1 hcount.2⟩, ?_, htwice, ?_⟩
  · rintro ⟨d, hd⟩
    obtain ⟨hw, -⟩ := hcoh.of_setWidth hd
    rw [← hw]
    exact ⟨d.width.min_le, d.width.le_max⟩
  · intro count d hd
    obtain ⟨rfl, hcd⟩ := hcoh.of_setWidth hd
    refine ⟨rfl, fun r hr => hcd.bit_of_lt hcoh hr, hcd.requiredInputs_of_le hcoh, ?_⟩
    intro i hi
    rw [requiredInputs, hcd.table_eq] at hi
    exact TruthTable.mem_requiredInputs_of_resize hi
  · intro a ha
    obtain ⟨d, e, f, hd, he, hf, hsame⟩ :=
      htwice a c.width.inputs ⟨by omega, ha.2⟩ ⟨hmin, hmax⟩ (by omega)
    -- At their own width the contents are kept.
    obtain ⟨hw, hcf⟩ := hcoh.of_setWidth hf
    rw [hcf.eq_of_width (Width.ext_inputs hw)] at hsame
    exact ⟨d, e, hd, he, hsame⟩

/-- `A1*~A3` on two pins, where `A3` is held at 0, is `A1` on four pins also where `A3` is 1, and
back on two pins it is what it was. -/
theorem setWidth_of_reachable_wide :
    ∃ c d e, ofEquationAt (.and (.plain 1) (.inverted 3)) 2 = .ok c ∧ c.setWidth 4 = .ok d ∧
      c.equation.evaluate 5 = false ∧ d.equation.evaluate 5 = true ∧
      d.requiredInputs = c.requiredInputs ∧ d.setWidth 2 = .ok e ∧ e.sameFunction c = true := by
  have hc : Reachable ⟨⟨2, by decide, by decide⟩, .equation (.and (.plain 1) (.inverted 3)) none⟩ :=
    .built (.equation (show ofEquationAt (.and (.plain 1) (.inverted 3)) 2 = .ok _ from rfl))
  obtain ⟨-, hrows, -, hback⟩ := setWidth_of_reachable hc
  obtain ⟨d, e, hd, he, hsame⟩ := hback 4 (by decide)
  obtain ⟨-, hforms, hrequired, -⟩ := hrows 4 d hd
  obtain ⟨-, hout⟩ := hforms 5 (by decide)
  exact ⟨_, d, e, rfl, hd, by decide, by rw [hout]; decide, hrequired (by decide), he, hsame⟩

/-! ## Reduced contents at another width -/

/-- At every width reduced contents have the table of the same packed equation. -/
theorem IsResized.table_of_reduce {c d : Contents} (hc : c.Coherent) (h : IsResized c.reduce d) :
    d.table = c.table.packed.toTable d.width := by
  have hin : c.table.packed.Within c.width.inputs :=
    c.table.within_packed hc.length_requiredInputs_le
  rw [h.table_eq, hc.table_reduce, hin.resize_toTable]

/-- Contents that are widened and then reduced have the table of the same packed equation. -/
theorem IsResized.table_reduce_of_le {c d : Contents} (hc : c.Coherent) (h : IsResized c d)
    (hle : c.width.inputs ≤ d.width.inputs) :
    d.reduce.table = c.table.packed.toTable d.width := by
  rw [← hc.width_table] at hle
  rw [h.coherent.table_reduce, h.table_eq, c.table.packed_resize_of_le hle]

/-- Reduced contents keep their equation at every width with room for the pins that matter, if some
pin did not matter before. -/
theorem IsResized.equation_of_reduce {c d : Contents} (hc : c.Coherent) (h : IsResized c.reduce d)
    (hroom : c.requiredInputs.length ≤ d.width.inputs)
    (hne : c.requiredInputs.length ≠ c.width.inputs) : d.equation = c.reduce.equation := by
  by_cases hw : d.width = c.reduce.width
  · rw [h.eq_of_width hw]
  · rw [h.equation_eq hw, h.table_of_reduce hc, c.table.toEquation_toTable_packed hroom,
      equation_reduce_of_ne hne]

/-- However contents were built and whatever was done with them, once they are reduced they can be
narrowed to any width with room for the pins that matter: the equation stays as it is if some pin
did not matter, and all of the contents if every pin did, the same pins matter, and widening
restores the reduced contents. And contents are the same at a larger width whether they are reduced
first and widened then or the other way round. -/
theorem setWidth_reduce_of_reachable {c : Contents} (h : c.Reachable) :
    (∀ m, max 1 c.requiredInputs.length ≤ m → m ≤ c.width.inputs →
        ∃ d e, c.reduce.setWidth m = .ok d ∧ d.setWidth c.width.inputs = .ok e ∧
          d.width.inputs = m ∧
          (c.requiredInputs.length < c.width.inputs → d.equation = c.reduce.equation) ∧
          (c.requiredInputs.length = c.width.inputs → d = c.reduce) ∧
          d.requiredInputs = List.range' 1 c.requiredInputs.length ∧
          e.sameFunction c.reduce = true) ∧
      ∀ m, c.width.inputs ≤ m → m ≤ 6 →
        ∃ d e, c.reduce.setWidth m = .ok d ∧ c.setWidth m = .ok e ∧
          d.sameFunction e.reduce = true := by
  have hcoh := h.coherent
  have hmin : 1 ≤ c.width.inputs := c.width.min_le
  have hmax : c.width.inputs ≤ 6 := c.width.le_max
  constructor
  · intro m hroom hm
    have hm1 : 1 ≤ m := by omega
    have hm6 : m ≤ 6 := by omega
    obtain ⟨d, hd⟩ := c.reduce.exists_setWidth hm1 hm6
    obtain ⟨e, he⟩ := d.exists_setWidth hmin hmax
    obtain ⟨rfl, hcd⟩ := hcoh.reduce.of_setWidth hd
    obtain ⟨hew, hde⟩ := hcd.coherent.of_setWidth he
    have hroom' : c.requiredInputs.length ≤ d.width.inputs := by omega
    have htable : d.table = c.table.packed.toTable d.width := hcd.table_of_reduce hcoh
    have hback : e.table = c.reduce.table := by
      have hin : c.table.packed.Within d.width.inputs := c.table.within_packed hroom'
      rw [hde.table_eq, htable, hin.resize_toTable, Width.ext_inputs hew, hcoh.table_reduce]
    refine ⟨d, e, hd, he, rfl, fun hlt => ?_, fun hall => ?_, ?_, sameFunction_iff.mpr hback⟩
    · exact hcd.equation_of_reduce hcoh hroom' (Nat.ne_of_lt hlt)
    · -- There is no room to narrow contents of which every pin matters.
      have hw : d.width.inputs = c.width.inputs := by omega
      exact hcd.eq_of_width ((Width.ext_inputs hw).trans c.width_reduce.symm)
    · rw [requiredInputs, htable]
      exact c.table.requiredInputs_toTable_packed hroom'
  · intro m hm hm6
    have hm1 : 1 ≤ m := by omega
    obtain ⟨d, hd⟩ := c.reduce.exists_setWidth hm1 hm6
    obtain ⟨e, he⟩ := c.exists_setWidth hm1 hm6
    obtain ⟨hdm, hcd⟩ := hcoh.reduce.of_setWidth hd
    obtain ⟨rfl, hce⟩ := hcoh.of_setWidth he
    have htable : d.table = e.reduce.table := by
      rw [hcd.table_of_reduce hcoh, hce.table_reduce_of_le hcoh hm, Width.ext_inputs hdm]
    exact ⟨d, e, hd, he, sameFunction_iff.mpr htable⟩

/-- `A2*~A3` on three pins keeps its reduced equation on two pins, from where it can be widened
again, and may be moved to five pins before or after it is reduced. -/
theorem setWidth_reduce_of_reachable_moved :
    ∃ c d e f g, ofEquationAt (.and (.plain 2) (.inverted 3)) 3 = .ok c ∧
      c.reduce.setWidth 2 = .ok d ∧ d.equation = .and (.inverted 2) (.plain 1) ∧
      d.setWidth 3 = .ok e ∧ e.sameFunction c.reduce = true ∧
      c.reduce.setWidth 5 = .ok f ∧ c.setWidth 5 = .ok g ∧ f.sameFunction g.reduce = true := by
  have hc : Reachable ⟨⟨3, by decide, by decide⟩, .equation (.and (.plain 2) (.inverted 3)) none⟩ :=
    .built (.equation (show ofEquationAt (.and (.plain 2) (.inverted 3)) 3 = .ok _ from rfl))
  obtain ⟨hnarrow, hwide⟩ := setWidth_reduce_of_reachable hc
  obtain ⟨d, e, hd, he, -, hequation, -, -, hback⟩ := hnarrow 2 (by decide) (by decide)
  obtain ⟨f, g, hf, hg, hsame⟩ := hwide 5 (by decide) (by decide)
  exact ⟨_, d, e, f, g, rfl, hd, (hequation (by decide)).trans (by decide), he, hback, hf, hg,
    hsame⟩

end Contents

end LutLogic
