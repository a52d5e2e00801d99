import LutLogic.Proofs.Command.RoundTrip
import LutLogic.Proofs.Equation.Renumber
import LutLogic.Proofs.Equation.Unambiguous

/-!
# The moves of a reduction

A report on a reduction shows contents before and after it and lists the pins that moved. Reducing
contents does not make this list: where every pin of the width matters it numbers no pin at all, and
elsewhere it ranks the pins that matter, those that stay where they are included. The list is made
beside it, and leaves these out.

`PinMap.Explains` says what a list of moves has to do with the two tables. The ranks of the pins
that matter explain the packed table (`TruthTable.explains_rankMap`), which is what the contents are
reduced to either way. A pin that is not listed keeps its number and a pin that is listed does not
(`mem_movedPins`), so the list is the same map as the ranks, and so it is in JSON, where the names
of the pins are keys, because different pins have different names.
-/

namespace LutLogic

/-- Different pins have different names. -/
theorem pinName_injective : Function.Injective fun i => String.ofList (pinName i) := fun _ _ h =>
  pinDigits_injective (List.tail_eq_of_cons_eq (String.ofList_injective h))

namespace PinMap

/-- A renumbering explains what became of a table: it keeps the order of the pins that matter, and
in every row there is the output that the table had in the rows in which each of these pins has the
value of the pin with its new number. -/
structure Explains (m : PinMap) (before after : TruthTable) : Prop where
  /-- The widths are the same. -/
  width_eq : after.width = before.width
  /-- The outputs go with the pins. -/
  bit_eq : ∀ x < 2 ^ before.width.inputs, ∀ y < 2 ^ before.width.inputs,
    (∀ i ∈ before.requiredInputs, pinValue y i = pinValue x (m.apply i)) →
    after.bit x = before.bit y
  /-- The order of the pins is kept. -/
  strictMonoOn : StrictMonoOn m.apply {i | i ∈ before.requiredInputs}

/-- What a renumbering explains is explained by every list of the same renumbering. -/
theorem Explains.congr {m m' : PinMap} {t u : TruthTable} (h : m.Explains t u)
    (heq : m'.apply = m.apply) : m'.Explains t u :=
  ⟨h.width_eq, heq ▸ h.bit_eq, heq ▸ h.strictMonoOn⟩

end PinMap

open Contents

/-- The ranks of the pins that matter explain the packed table. -/
theorem TruthTable.explains_rankMap (t : TruthTable) :
    (rankMap t.requiredInputs).Explains t (t.packed.toTable t.width) := by
  refine ⟨rfl, fun x hx y hy hpins => ?_, strictMonoOn_rankMap t.pairwise_requiredInputs⟩
  refine t.bit_toTable_packed hy hx fun j hj => ?_
  rw [hpins _ (List.getElem_mem hj), rankMap_apply_getElem t.pairwise_requiredInputs hj]

namespace Contents

/-! ## The pins that are listed -/

/-- The pins of a list that their ranks move. -/
def movedPins (pins : List Nat) : List Nat := pins.filter fun p => p != (rankMap pins).apply p

/-- The ranks of pins list the pins with their ranks. -/
theorem rankMap_eq_map {pins : List Nat} (h : pins.Pairwise (· < ·)) :
    rankMap pins = pins.map fun p => (p, (rankMap pins).apply p) :=
  calc rankMap pins = (pins.map id).zip (pins.map (rankMap pins).apply) := by
        rw [map_rankMap h, List.map_id, rankMap]
    _ = pins.map fun p => (p, (rankMap pins).apply p) := List.zip_map'

/-- The ranks that differ from their pins are those of the pins that are moved. -/
theorem filter_rankMap {pins : List Nat} (h : pins.Pairwise (· < ·)) :
    ((rankMap pins).filter fun (old, new) => old != new) =
      (movedPins pins).map fun p => (p, (rankMap pins).apply p) :=
  calc ((rankMap pins).filter fun (old, new) => old != new)
      = (pins.map fun p => (p, (rankMap pins).apply p)).filter fun (old, new) => old != new :=
        congrArg _ (rankMap_eq_map h)
    _ = (movedPins pins).map fun p => (p, (rankMap pins).apply p) := List.filter_map

/-- A pin is moved exactly if its rank differs from it. -/
theorem mem_movedPins {pins : List Nat} (h : pins.Pairwise (· < ·)) {i : Nat} :
    i ∈ movedPins pins ↔ (rankMap pins).apply i ≠ i := by
  rw [movedPins, List.mem_filter, bne_iff_ne, ne_comm]
  refine and_iff_right_of_imp fun hne => ?_
  -- A pin that is not in the list keeps its number.
  by_contra hi
  refine hne ?_
  rw [rankMap_eq_map h, PinMap.apply_map, if_neg hi]

/-- Among pairs made from the pins that are moved, the key of a pin leads to what was made from it,
if the pin is moved. -/
theorem lookup_map_movedPins {κ β : Type} [BEq κ] [LawfulBEq κ] {pins : List Nat}
    (h : pins.Pairwise (· < ·)) {key : Nat → κ} (hkey : Function.Injective key) (value : Nat → β)
    (i : Nat) :
    ((movedPins pins).map fun p => (key p, value p)).lookup (key i) =
      if (rankMap pins).apply i = i then none else some (value i) := by
  rw [lookup_map_key key value fun p _ heq => hkey heq]
  by_cases hi : (rankMap pins).apply i = i
  · have hmem : i ∉ movedPins pins := fun hmem => (mem_movedPins h).mp hmem hi
    rw [if_neg hmem, if_pos hi]
  · have hmem : i ∈ movedPins pins := (mem_movedPins h).mpr hi
    rw [if_pos hmem, if_neg hi]

/-! ## Reading a text -/

/-- Contents that are read from the text of an equation are the equation, at the width that was
asked for. -/
theorem exists_equation_of_ofEquationText {text : String} {w : Width} {c : Contents}
    (h : ofEquationText text w.inputs = .ok c) :
    ∃ e : Equation, e.Within maxInputs ∧ c = ⟨w, .equation e none⟩ := by
  obtain ⟨e, -, h⟩ := bind_eq_ok_iff.mp h
  obtain ⟨v, hv, h⟩ := bind_eq_ok_iff.mp h
  obtain ⟨d, hd, rfl⟩ := map_eq_ok_iff.mp h
  obtain ⟨rfl, hpins⟩ := Equation.of_checked hd
  have hvw : v = w := Width.ext_inputs (Width.ofNat_eq_ok_iff.mp hv)
  subst hvw
  exact ⟨d, hpins, rfl⟩

/-- Contents that are read from a text are coherent and have the width that was asked for. -/
theorem coherent_ofText {text : String} {w : Width} {c : Contents} (h : ofText text w = .ok c) :
    c.Coherent ∧ c.width = w := by
  unfold ofText at h
  split at h
  · obtain ⟨t, htw, rfl⟩ := exists_table_of_ofLiteral_inputs h
    exact ⟨coherent_table htw, rfl⟩
  · obtain ⟨e, hpins, rfl⟩ := exists_equation_of_ofEquationText h
    exact ⟨coherent_equation w hpins, rfl⟩

end Contents

namespace Command

namespace ReductionReport

/-! ## What a report lists -/

/-- A report lists the pins that are moved, with their ranks. -/
theorem moves_ofContents (c : Contents) (r : Radix) :
    (ofContents c r).moves =
      (movedPins c.requiredInputs).map fun p => (p, (rankMap c.requiredInputs).apply p) :=
  filter_rankMap c.table.pairwise_requiredInputs

/-- The moves of a report renumber pins as their ranks do. -/
theorem apply_moves (c : Contents) (r : Radix) :
    (ofContents c r).moves.apply = (rankMap c.requiredInputs).apply := by
  funext i
  have hlookup : (ofContents c r).moves.lookup i =
      if (rankMap c.requiredInputs).apply i = i then none
      else some ((rankMap c.requiredInputs).apply i) := by
    rw [moves_ofContents]
    exact lookup_map_movedPins c.table.pairwise_requiredInputs Function.injective_id _ i
  rw [PinMap.apply, hlookup]
  split
  · next hi => exact hi.symm
  · rfl

/-- In JSON, the name of a pin leads to the name of the pin that it is moved to, if it moves. -/
theorem lookup_moves (c : Contents) (r : Radix) (i : Nat) :
    ((ofContents c r).moves.map fun (old, new) =>
      (String.ofList (pinName old), Json.string (String.ofList (pinName new)))).lookup
        (String.ofList (pinName i)) =
      if (ofContents c r).moves.apply i = i then none
      else some (.string (String.ofList (pinName ((ofContents c r).moves.apply i)))) := by
  rw [apply_moves, moves_ofContents, List.map_map]
  exact lookup_map_movedPins c.table.pairwise_requiredInputs pinName_injective _ i

/-- If every pin of the width matters, no move is listed and the contents are shown after the
reduction as before it. -/
theorem ofContents_of_all {c : Contents} (r : Radix)
    (h : c.requiredInputs = List.range' 1 c.width.inputs) :
    (ofContents c r).moves = [] ∧ (ofContents c r).before = (ofContents c r).after := by
  have hlength : c.requiredInputs.length = c.width.inputs := by rw [h, List.length_range']
  constructor
  · have hmoved : movedPins c.requiredInputs = [] := by
      refine List.eq_nil_iff_forall_not_mem.mpr fun i hi => ?_
      have hdense : c.requiredInputs = List.range' 1 c.requiredInputs.length := by rw [hlength, h]
      have hpin : i ∈ c.requiredInputs := List.mem_of_mem_filter hi
      exact (mem_movedPins c.table.pairwise_requiredInputs).mp hi
        (rankMap_apply_of_dense hdense hpin)
    rw [moves_ofContents, hmoved, List.map_nil]
  · exact (Action.ofContents_eq_of_showsAs (showsAs_reduce_of_all hlength) r).symm

end ReductionReport

namespace Action

/-- A literal in a report is read as the table that it shows. -/
theorem ofLiteralAt_init {c : Contents} {w : Width} (h : c.Coherent) (hw : c.width = w)
    (r : Radix) : TruthTable.ofLiteralAt (ContentsReport.ofContents c r).init w.inputs =
      .ok c.table := by
  have hwidth : c.table.width = w := h.width_table.trans hw
  rw [← hwidth, ContentsReport.ofContents]
  exact c.table.ofLiteralAt_literal r

/-- A text that is read is reported on with its reduction, and the moves of the report describe it.
They explain the table that is shown after the reduction by the table that is shown before it. They
list the pins that matter and get another number, and in JSON these alone are keys. If every pin of
the width matters, there are none, and the contents are shown after the reduction as before it. -/
theorem moves_of_reduce {s : Settings} {text : String} {c : Contents}
    (h : Contents.ofText text s.width = .ok c) :
    ∃ r fields, reduce.report s text = .ok (.reduction r) ∧
      r.json = .object [("before", r.before.json), ("mapping", .object fields),
        ("after", r.after.json)] ∧
      TruthTable.ofLiteralAt r.before.init s.width.inputs = .ok c.table ∧
      TruthTable.ofLiteralAt r.after.init s.width.inputs = .ok c.reduce.table ∧
      r.moves.Explains c.table c.reduce.table ∧
      r.moves = (c.requiredInputs.filter fun i => i != r.moves.apply i).map
        (fun i => (i, r.moves.apply i)) ∧
      (∀ i, fields.lookup (String.ofList (pinName i)) =
        if r.moves.apply i = i then none
        else some (.string (String.ofList (pinName (r.moves.apply i))))) ∧
      ((∀ i, 1 ≤ i → i ≤ s.width.inputs → i ∈ c.requiredInputs) →
        r.moves = [] ∧ r.before = r.after) := by
  obtain ⟨hcoh, hw⟩ := coherent_ofText h
  have hreport : reduce.report s text = .ok (.reduction (.ofContents c s.radix)) :=
    map_eq_ok_iff.mpr ⟨_, bind_eq_ok_iff.mpr ⟨c, h, rfl⟩, rfl⟩
  refine ⟨.ofContents c s.radix, _, hreport, rfl, ofLiteralAt_init hcoh hw _,
    ofLiteralAt_init hcoh.reduce (c.width_reduce.trans hw) _, ?_, ?_,
    ReductionReport.lookup_moves c s.radix, fun hall => ReductionReport.ofContents_of_all _ ?_⟩
  · have hexplains : (rankMap c.requiredInputs).Explains c.table c.reduce.table := by
      rw [hcoh.table_reduce, ← hcoh.width_table]
      exact c.table.explains_rankMap
    exact hexplains.congr (ReductionReport.apply_moves c s.radix)
  · rw [ReductionReport.apply_moves, ReductionReport.moves_ofContents, movedPins]
  · rw [hw, requiredInputs, ← hw, ← hcoh.width_table]
    refine TruthTable.requiredInputs_of_forall ?_
    rw [hcoh.width_table, hw]
    exact hall

/-- The moves of `A3*~A2` on three pins are those of `A2` to `A1` and of `A3` to `A2`: after the
reduction the row of `A2` alone has the output that the row of `A3` alone had. -/
theorem moves_of_reduce_down :
    ∃ s c r, s = Settings.mk ⟨3, by decide, by decide⟩ .hex .text false ∧
      Contents.ofText "A3*~A2" s.width = .ok c ∧
      reduce.report s "A3*~A2" = .ok (.reduction r) ∧ r.moves = [(2, 1), (3, 2)] ∧
      r.after.init = "0x44" ∧ c.reduce.table.bit 2 = c.table.bit 4 ∧ c.table.bit 4 = true := by
  have hc : Contents.ofText "A3*~A2" ⟨3, by decide, by decide⟩ =
      .ok ⟨⟨3, by decide, by decide⟩, .equation (.and (.plain 3) (.inverted 2)) none⟩ := rfl
  obtain ⟨r, fields, hr, -, -, -, hexplains, -⟩ :=
    moves_of_reduce (s := ⟨⟨3, by decide, by decide⟩, .hex, .text, false⟩) hc
  cases hr
  exact ⟨_, _, _, rfl, hc, rfl, rfl, rfl,
    hexplains.bit_eq 2 (by decide) 4 (by decide) (by decide), by decide⟩

end Action

end Command

end LutLogic
