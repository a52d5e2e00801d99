import LutLogic.Proofs.Cell.RoundTrip
import LutLogic.Proofs.Contents.Decoded

/-!
# Static sources

Whether a cell is a static source is seen from the tree of its equation. Such a cell always has the
output in every row, for coherent contents have the table of their equation. The converse is not
true of equations as they are written, `(A1+~A1)` being none of the constants, but it is true of
settled contents, whose equation was decoded or cannot be constant.
-/

namespace LutLogic.Cell

/-- A cell that is a static source is used for logic and has the output in every row, however it was
made and whatever was done with it, and no cell is a source of both constants. If its contents were
last written as a table or have just been reduced, a cell that is used for logic is a static source
exactly if it has the output in every row. -/
theorem isSource_of_reachable {c : Cell} (h : c.Reachable) :
    (∀ output, c.isSource output = true →
        c.mode = .lut ∧ ∀ row < 2 ^ c.contents.width.inputs, c.contents.table.bit row = output) ∧
      ¬(c.isSource true = true ∧ c.isSource false = true) ∧
      (c.mode = .lut → c.contents.Settled → ∀ output, c.isSource output = true ↔
        ∀ row < 2 ^ c.contents.width.inputs, c.contents.table.bit row = output) := by
  have hcoh := h.contents.coherent
  refine ⟨fun output hsource => ?_, ?_, fun hmode hsettled output => ?_⟩
  · obtain ⟨hmode, hequation⟩ := isSource_eq_true_iff.mp hsource
    exact ⟨hmode, hcoh.constant?_table_eq_some_iff.mp (hcoh.constant?_table hequation)⟩
  · rintro ⟨htrue, hfalse⟩
    have hone := (isSource_eq_true_iff.mp htrue).2
    rw [(isSource_eq_true_iff.mp hfalse).2] at hone
    cases hone
  · rw [isSource_eq_true_iff, and_iff_right hmode, hsettled.equation_eq_constant_iff,
      hcoh.constant?_table_eq_some_iff]

/-- With `A1+~A1` a cell is no static source although it has the output 1 in every row. It becomes
one when its contents are reduced. -/
theorem isSource_of_reachable_tautology :
    ∃ x, ∃ c d : Cell, Contents.ofEquationAt (.or (.plain 1) (.inverted 1)) 2 = .ok x ∧
      c = ⟨.lut, some "O6", x⟩ ∧ (c.change (.within .reduce)).2 = d ∧
      (∀ row < 2 ^ 2, c.contents.table.bit row = true) ∧ c.isSource true = false ∧
      d.mode = .lut ∧ d.contents.Settled ∧ d.isSource true = true ∧
      ∀ row < 2 ^ 2, d.contents.table.bit row = true := by
  have hx : Contents.ofEquationAt (.or (.plain 1) (.inverted 1)) 2 =
      .ok ⟨⟨2, by decide, by decide⟩, .equation (.or (.plain 1) (.inverted 1)) none⟩ := rfl
  have hc := Reachable.made .lut (some "O6") (.built (.equation hx))
  have hsettled := Contents.Settled.reduce hc.contents
  obtain ⟨hsound, -, hcomplete⟩ :=
    isSource_of_reachable (hc.change (.within .reduce) fun _ hd => nomatch hd)
  have hsource := (hcomplete rfl hsettled true).mpr (by decide)
  exact ⟨_, _, _, hx, rfl, rfl, by decide, by decide, rfl, hsettled, hsource,
    (hsound true hsource).2⟩

end LutLogic.Cell
