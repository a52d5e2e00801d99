import LutLogic.Command.Action
import LutLogic.Proofs.Contents.Decoded
import LutLogic.Proofs.Equation.Reprint
import LutLogic.Proofs.TruthTable.Literal

/-!
# Reports can be entered again

A report on contents shows an equation and a literal. If the contents were decoded from a literal,
either of the two can be entered in its turn, and with the same settings it gives the same report.

Texts are no obstacle. A decoded equation nests at most four levels for each input
(`cost_ofRows_le`), far from the nesting limit, so its text is read back, and a literal always is.
What is read back has one form of the contents alone, and the other form has to come out the same.
It does for contents whose equation is the one that their table is decoded to (`IsDecoded`). A
literal makes such contents and reducing keeps them such, also where they are kept as they are. Then
only the reduction is left that the settings may ask for: it is made a second time, and that changes
nothing.
-/

namespace LutLogic

namespace Equation

/-! ## Decoded equations are read back -/

/-- A joined equation costs at most four levels more than its parts. -/
theorem cost_select_le (i : Nat) (low high : Equation) :
    (select i low high).cost ≤ max low.cost high.cost + 4 := by
  unfold select
  split
  all_goals
    simp only [plain, inverted, and, or, cost]
    omega

/-- A decoded equation costs at most four levels for each input. -/
theorem cost_ofRows_le (k value : Nat) : (ofRows k value).cost ≤ 4 * k := by
  fun_induction ofRows k value with
  | case1 value => exact Nat.le_refl 0
  | case2 k => exact Nat.zero_le _
  | case3 k => exact Nat.zero_le _
  | case4 k value hzero hones low high heq ih => omega
  | case5 k value hzero hones low high hne ihl ihh =>
    have hselect := cost_select_le (k + 1) (ofRows k low) (ofRows k high)
    omega

/-- The text of a decoded equation is read back. -/
theorem ofText_text_toEquation (t : TruthTable) : ofText t.toEquation.text = .ok t.toEquation := by
  have hin : t.toEquation.Within maxInputs := t.within_toEquation.mono t.width.le_max
  have hcost : t.toEquation.cost ≤ 4 * t.width.inputs := cost_ofRows_le _ _
  have hinputs : t.width.inputs ≤ 6 := t.width.le_max
  refine hin.ofText_text.1 ?_
  unfold maxNesting
  omega

end Equation

namespace Contents

/-! ## Reading what is shown -/

/-- Contents that are read from a literal at the number of inputs of a width are its table. -/
theorem exists_table_of_ofLiteral_inputs {text : String} {w : Width} {c : Contents}
    (h : ofLiteral text w.inputs = .ok c) :
    ∃ t : TruthTable, t.width = w ∧ c = ⟨w, .table t none⟩ := by
  obtain ⟨t, ht, rfl⟩ := exists_table_of_ofLiteral h
  have hw : t.width = w := Width.ext_inputs ht
  exact ⟨t, hw, by rw [hw]⟩

/-- The literal of a table is read as the table. -/
theorem ofLiteral_literal {t : TruthTable} {w : Width} (h : t.width = w) (r : Radix) :
    ofLiteral (t.literal r) w.inputs = .ok ⟨w, .table t none⟩ := by
  subst h
  have hread : TruthTable.ofLiteral (t.literal r) t.width = .ok t := by
    rw [← TruthTable.ofLiteralAt_inputs]
    exact t.ofLiteralAt_literal r
  exact bind_eq_ok_iff.mpr
    ⟨t.width, Width.ofNat_inputs _, bind_eq_ok_iff.mpr ⟨t, hread, rfl⟩⟩

/-- The text of a decoded equation is read as the equation. -/
theorem ofEquationText_toEquation (t : TruthTable) (w : Width) :
    ofEquationText t.toEquation.text w.inputs = .ok ⟨w, .equation t.toEquation none⟩ := by
  have hin : t.toEquation.Within maxInputs := t.within_toEquation.mono t.width.le_max
  have hwritten : ofEquation t.toEquation w = .ok ⟨w, .equation t.toEquation none⟩ :=
    map_eq_ok_iff.mpr ⟨t.toEquation, hin.checked, rfl⟩
  exact bind_eq_ok_iff.mpr ⟨t.toEquation, Equation.ofText_text_toEquation t,
    bind_eq_ok_iff.mpr ⟨w, Width.ofNat_inputs w, hwritten⟩⟩

end Contents

namespace Command

open Contents

namespace Action

/-! ## Reports -/

/-- What the settings show of contents is reached by reducing them or not at all. -/
theorem shown_of_reduce {p : Contents → Prop} (s : Settings) {c : Contents} (h : p c)
    (hreduce : p c.reduce) : p (shown s c) := by
  unfold shown
  split
  · exact hreduce
  · exact h

/-- Contents that show the same do so as the settings want them shown. -/
theorem showsAs_shown {c d : Contents} (s : Settings) (h : ShowsAs c d) (hc : c.Coherent)
    (hd : d.Coherent) : ShowsAs (shown s c) (shown s d) := by
  unfold shown
  split
  · exact h.reduce hc hd
  · exact h

/-- Contents as the settings want them shown are what the settings want shown of them. -/
theorem showsAs_shown_shown {c : Contents} (s : Settings) (hc : c.Coherent) :
    ShowsAs (shown s (shown s c)) (shown s c) := by
  unfold shown
  split
  · exact hc.showsAs_reduce_reduce
  · exact ⟨rfl, rfl, rfl⟩

/-- Reports on contents that show the same are the same. -/
theorem ofContents_eq_of_showsAs {c d : Contents} (h : ShowsAs c d) (r : Radix) :
    ContentsReport.ofContents c r = ContentsReport.ofContents d r := by
  unfold ContentsReport.ofContents
  rw [h.width_eq, h.equation_eq, h.table_eq]

/-- If contents are shown as they are, what shows the same as they do is reported on as they are. -/
theorem ofContents_shown {c d : Contents} (s : Settings) (hc : c.Coherent) (hd : d.Coherent)
    (h : ShowsAs c d) (hfixed : ShowsAs (shown s d) d) :
    ContentsReport.ofContents (shown s c) s.radix = ContentsReport.ofContents d s.radix := by
  have hshown : ShowsAs (shown s c) (shown s d) := showsAs_shown s h hc hd
  exact ofContents_eq_of_showsAs (hshown.trans hfixed) s.radix

/-- The report on decoded contents that are shown as they are is what encoding their equation gives,
and what decoding their literal gives. -/
theorem report_of_isDecoded {s : Settings} {d : Contents} (hd : d.Coherent) (hw : d.width = s.width)
    (hdecoded : d.IsDecoded) (hfixed : ShowsAs (shown s d) d) :
    encodeReport s d.equation.text = .ok (.ofContents d s.radix) ∧
      decodeReport s (d.table.literal s.radix) = .ok (.ofContents d s.radix) := by
  constructor
  · have hread : ofEquationText d.equation.text s.width.inputs =
        .ok ⟨d.width, .equation d.equation none⟩ := by
      rw [hdecoded, ← hw]
      exact ofEquationText_toEquation d.table d.width
    have hcoh : Coherent ⟨d.width, .equation d.equation none⟩ :=
      coherent_equation d.width hd.within_equation
    have hreport := ofContents_shown s hcoh hd hd.showsAs_equation hfixed
    exact bind_eq_ok_iff.mpr ⟨_, hread, congrArg Except.ok hreport⟩
  · have hread : ofLiteral (d.table.literal s.radix) s.width.inputs =
        .ok ⟨d.width, .table d.table none⟩ := by
      rw [← hw]
      exact ofLiteral_literal hd.width_table s.radix
    have hcoh : Coherent ⟨d.width, .table d.table none⟩ := coherent_table hd.width_table
    have hreport := ofContents_shown s hcoh hd hdecoded.showsAs_table hfixed
    exact bind_eq_ok_iff.mpr ⟨_, hread, congrArg Except.ok hreport⟩

/-- With whatever settings a report on a literal was made, with the same settings its equation is
encoded and its literal is decoded to this very report, and its width is that of the settings. -/
theorem report_of_decode {s : Settings} {text : String} {r : ContentsReport}
    (h : decode.report s text = .ok (.contents r)) :
    encode.report s r.equation = .ok (.contents r) ∧
      decode.report s r.init = .ok (.contents r) ∧ r.inputs = s.width.inputs := by
  obtain ⟨r', hr, heq⟩ := map_eq_ok_iff.mp h
  cases heq
  obtain ⟨c, hc, hr⟩ := bind_eq_ok_iff.mp hr
  cases hr
  obtain ⟨t, htw, rfl⟩ := exists_table_of_ofLiteral_inputs hc
  have hcoh : Coherent ⟨s.width, .table t none⟩ := coherent_table htw
  have hdecoded : IsDecoded ⟨s.width, .table t none⟩ := rfl
  -- What is shown is decoded as well, at the same width.
  have hshown : (shown s ⟨s.width, .table t none⟩).Coherent := shown_of_reduce s hcoh hcoh.reduce
  have hshown_decoded : (shown s ⟨s.width, .table t none⟩).IsDecoded :=
    shown_of_reduce s hdecoded (hdecoded.reduce hcoh)
  have hw : (shown s ⟨s.width, .table t none⟩).width = s.width :=
    shown_of_reduce (p := fun d => d.width = s.width) s rfl (width_reduce _)
  obtain ⟨hencode, hdecode⟩ :=
    report_of_isDecoded hshown hw hshown_decoded (showsAs_shown_shown s hcoh)
  refine ⟨map_eq_ok_iff.mpr ⟨_, hencode, rfl⟩, map_eq_ok_iff.mpr ⟨_, hdecode, rfl⟩, ?_⟩
  exact congrArg Width.inputs hw

/-- On three pins and with contents reduced before they are shown, the literal of `A3*~A2` gives the
report of `A2*~A1`, whose equation and whose literal give it again. -/
theorem report_of_decode_reduced :
    ∃ s r, s = Settings.mk ⟨3, by decide, by decide⟩ .binary .text true ∧
      decode.report s "0x30" = .ok (.contents r) ∧
      r = ⟨3, "(A2*~A1)", "0b01000100"⟩ ∧
      encode.report s "(A2*~A1)" = .ok (.contents r) ∧
      decode.report s "0b01000100" = .ok (.contents r) := by
  have hreport : decode.report ⟨⟨3, by decide, by decide⟩, .binary, .text, true⟩ "0x30" =
      .ok (.contents ⟨3, "(A2*~A1)", "0b01000100"⟩) := rfl
  obtain ⟨hencode, hdecode, -⟩ := report_of_decode hreport
  exact ⟨_, _, rfl, hreport, rfl, hencode, hdecode⟩

end Action

end Command

end LutLogic
