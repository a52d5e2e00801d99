import LutLogic.Cell.Run
import LutLogic.Proofs.Cell.Parts
import LutLogic.Proofs.Contents.Coherence

/-!
# Reading the attribute of a cell

The attribute of a cell is put together from its mode, its pin and its value, and so it is read as
its value is (`read_attributeChars`).

What is written as the value is read as contents again: the literal of a table always, and the text
of an equation, which never starts like a literal, as long as its cost is within the nesting limit
(`readValue_valueText_eq_ok_iff`). A cell used for logic whose equation costs more can be written,
but its attribute is refused.
-/

namespace LutLogic

/-- The text of an equation does not start like a literal. -/
theorem Equation.isLiteral_chars (e : Equation) : isLiteral e.chars = false := by
  cases e with
  | constant output => cases output <;> rfl
  | input index inverted => cases inverted <;> rfl
  | binary op left right => rfl

namespace Cell

/-! ## Reachable cells -/

/-- Cells after any changes and questions. -/
inductive Reachable : Cell → Prop where
  /-- A cell that was put together from its parts. -/
  | made (m : Mode) (pin : Option String) {d : Contents} (h : d.Reachable) : Reachable ⟨m, pin, d⟩
  /-- A cell from parts that may not have been given. -/
  | parts {m : Option Mode} {pin : Option String} {d : Option Contents} {c : Cell}
    (h : ofParts m pin d = .ok c) (hd : ∀ x ∈ d, x.Reachable) : Reachable c
  /-- A cell that was read. -/
  | read {text : String} {count : Nat} {c : Cell} (h : ofAttributeAt text count = .ok c) :
    Reachable c
  /-- A change further. -/
  | change {c : Cell} (h : Reachable c) (r : Change) (hr : ∀ d, r = .contents d → d.Reachable) :
    Reachable (c.change r).2
  /-- A question to the contents further. -/
  | query {c : Cell} (h : Reachable c) (q : Contents.Query) :
    Reachable { c with contents := c.contents.afterQuery q }

/-- Contents that were read as a value are reachable. -/
theorem reachable_of_readValue {text : List Char} {w : Width} {d : Contents}
    (h : readValue text w = .ok d) : d.Reachable := by
  unfold readValue at h
  split at h
  · obtain ⟨t, -, rfl⟩ := map_eq_ok_iff.mp h
    exact .built (.table (Contents.ofTableAt_inputs t w))
  · obtain ⟨e, he, rfl⟩ := map_eq_ok_iff.mp h
    exact .built (.equation (Contents.ofEquationAt_inputs (Equation.within_of_read he) w))

/-- The contents of a reachable cell are reachable. -/
theorem Reachable.contents {c : Cell} (h : c.Reachable) : c.contents.Reachable := by
  induction h with
  | made m pin hd => exact hd
  | @parts m pin d c h hd =>
    unfold ofParts at h
    split at h
    · cases h
    · cases h
    · cases h
      exact hd _ rfl
  | read h =>
    obtain ⟨w, -, h⟩ := bind_eq_ok_iff.mp h
    rw [ofAttribute_eq] at h
    obtain ⟨m, pin, value, d, -, -, -, hd, rfl⟩ := read_eq_ok_iff.mp (Fault.within_eq_ok_iff.mp h)
    exact reachable_of_readValue hd
  | @change c h r hr ih =>
    cases r with
    | mode m => exact ih
    | pin p => exact ih
    | contents d => exact hr d rfl
    | source output => exact ih.step (.change (.constant output))
    | within r => exact ih.step (.change r)
  | query h q ih => exact ih.step (.query q)

/-! ## Writing the value -/

/-- A cell is a static source exactly if it is used for logic and its equation is the constant. -/
theorem isSource_eq_true_iff {c : Cell} {output : Bool} :
    c.isSource output = true ↔ c.mode = .lut ∧ c.contents.equation = .constant output := by
  rw [isSource, Bool.and_eq_true, beq_iff_eq, beq_iff_eq, Equation.constant?_eq_some_iff]

/-- The value of a cell used for logic is its equation, also where that is a constant. -/
theorem valueText_of_lut {c : Cell} (h : c.mode = .lut) :
    c.valueText = c.contents.equation.text := by
  unfold valueText
  -- A static source is written apart, with the text that its equation has.
  split
  · next hsource =>
    rw [(isSource_eq_true_iff.mp hsource).2]
    rfl
  · split
    · next hsource =>
      rw [(isSource_eq_true_iff.mp hsource).2]
      rfl
    · rfl

/-- The value of a memory is its table. -/
theorem valueText_of_ne_lut {c : Cell} (h : c.mode ≠ .lut) :
    c.valueText = c.contents.table.literal .hex := by
  have hsource (output : Bool) : ¬c.isSource output = true := fun hs =>
    h (isSource_eq_true_iff.mp hs).1
  rw [valueText, if_neg (hsource true), if_neg (hsource false), if_neg h]

/-- The value of a cell is read as contents of its table, for a memory always and otherwise if its
equation costs no more than the nesting limit. -/
theorem readValue_valueText_eq_ok_iff {c : Cell} (hc : c.contents.Coherent) {d : Contents} :
    readValue c.valueText.toList c.contents.width = .ok d ↔
      (c.mode ≠ .lut ∧ d = ⟨c.contents.width, .table c.contents.table none⟩) ∨
        (c.mode = .lut ∧ c.contents.equation.cost ≤ maxNesting ∧
          d = ⟨c.contents.width, .equation c.contents.equation none⟩) := by
  by_cases hmode : c.mode = .lut
  · rw [valueText_of_lut hmode, Equation.text, String.toList_ofList, readValue,
      Equation.isLiteral_chars, if_neg Bool.false_ne_true, map_eq_ok_iff]
    constructor
    · rintro ⟨e, he, rfl⟩
      obtain ⟨hcost, rfl⟩ := hc.within_equation.read_chars_eq_ok_iff.mp he
      exact .inr ⟨hmode, hcost, rfl⟩
    · rintro (⟨hne, -⟩ | ⟨-, hcost, rfl⟩)
      · exact absurd hmode hne
      · exact ⟨_, hc.within_equation.read_chars_eq_ok_iff.mpr ⟨hcost, rfl⟩, rfl⟩
  · have hread : TruthTable.readLiteral (c.contents.table.literalChars .hex) c.contents.width =
        .ok c.contents.table := by
      rw [← hc.width_table]
      exact c.contents.table.readLiteral_literalChars .hex
    rw [valueText_of_ne_lut hmode, TruthTable.literal, String.toList_ofList, readValue,
      TruthTable.isLiteral_literalChars, if_pos rfl, hread, Except.map,
      Contents.ofTable_of_width hc.width_table]
    constructor
    · rintro ⟨⟩
      exact .inl ⟨hmode, rfl⟩
    · rintro (⟨-, rfl⟩ | ⟨hlut, -⟩)
      · rfl
      · exact absurd hlut hmode

/-- A cell of the same mode with what the value is read as has the same table and the same value. -/
theorem forms_of_readValue_valueText {c d : Cell} (hc : c.contents.Coherent)
    (hmode : d.mode = c.mode)
    (h : readValue c.valueText.toList c.contents.width = .ok d.contents) :
    d.contents.table = c.contents.table ∧ d.valueText = c.valueText := by
  obtain ⟨hm, hd⟩ | ⟨hm, -, hd⟩ := (readValue_valueText_eq_ok_iff hc).mp h
  · rw [valueText_of_ne_lut hm, valueText_of_ne_lut (hmode ▸ hm), hd]
    exact ⟨rfl, rfl⟩
  · rw [valueText_of_lut hm, valueText_of_lut (hmode.trans hm), hd]
    exact ⟨hc.toTable_equation, rfl⟩

/-! ## Writing a cell and reading it again -/

/-- The attribute of a cell with a proper pin is read at its number of pins as its value is. -/
theorem ofAttributeAt_attributeText_eq_ok_iff {c d : Cell} {pin : String} (hpin : c.pin = some pin)
    (hne : pin ≠ "") (hchars : pin.toList.all isPinChar = true) :
    ofAttributeAt c.attributeText c.contents.width.inputs = .ok d ↔
      ∃ x, readValue c.valueText.toList c.contents.width = .ok x ∧ ⟨c.mode, c.pin, x⟩ = d := by
  have hnil : pin.toList ≠ [] := fun hnil => hne (String.toList_eq_nil_iff.mp hnil)
  have htext : c.attributeText.toList = attributeChars c.mode pin.toList c.valueText.toList := by
    rw [attributeText, toList_textWith, hpin, Option.getD_some]
  rw [ofAttributeAt_inputs, ofAttribute_eq, Fault.within_eq_ok_iff, htext,
    read_attributeChars _ _ _ hnil hchars, map_eq_ok_iff, String.ofList_toList, hpin]
  simp only [Fault.located_eq_ok_iff]

/-- The attribute of a reachable cell whose output pin is a name of letters, digits and underscores
is read at its number of pins exactly if the cell is a memory or its equation costs at most 256
levels. The cell that is read is the same in mode, pin and table, and has the same attribute. -/
theorem ofAttributeAt_attributeText {c : Cell} (hc : c.Reachable) {pin : String}
    (hpin : c.pin = some pin) (hne : pin ≠ "")
    (hchars : ∀ ch ∈ pin.toList, ch.isAlphanum = true ∨ ch = '_') :
    ((∃ d, ofAttributeAt c.attributeText c.contents.width.inputs = .ok d) ↔
        c.mode = .ram ∨ c.mode = .rom ∨ c.contents.equation.cost ≤ 256) ∧
      ∀ d, ofAttributeAt c.attributeText c.contents.width.inputs = .ok d →
        d.sameFunction c = true ∧ d.mode = c.mode ∧ d.pin = c.pin ∧
          d.contents.table = c.contents.table ∧ d.attributeText = c.attributeText := by
  have hcoh := hc.contents.coherent
  have hall : pin.toList.all isPinChar = true := by
    refine List.all_eq_true.mpr fun ch hmem => ?_
    rw [isPinChar, Bool.or_eq_true, beq_iff_eq]
    exact hchars ch hmem
  have hread (d : Cell) := ofAttributeAt_attributeText_eq_ok_iff (d := d) hpin hne hall
  have hvalue (x : Contents) := readValue_valueText_eq_ok_iff hcoh (d := x)
  refine ⟨⟨?_, fun h => ?_⟩, fun d hd => ?_⟩
  · rintro ⟨d, hd⟩
    obtain ⟨x, hx, -⟩ := (hread d).mp hd
    obtain ⟨hmode, -⟩ | ⟨-, hcost, -⟩ := (hvalue x).mp hx
    · cases hm : c.mode with
      | lut => exact absurd hm hmode
      | ram => exact .inl rfl
      | rom => exact .inr (.inl rfl)
    · exact .inr (.inr hcost)
  · by_cases hmode : c.mode = .lut
    · have hcost : c.contents.equation.cost ≤ maxNesting := by
        rw [hmode] at h
        rcases h with h | h | h
        · cases h
        · cases h
        · exact h
      exact ⟨_, (hread _).mpr ⟨_, (hvalue _).mpr (.inr ⟨hmode, hcost, rfl⟩), rfl⟩⟩
    · exact ⟨_, (hread _).mpr ⟨_, (hvalue _).mpr (.inl ⟨hmode, rfl⟩), rfl⟩⟩
  · obtain ⟨x, hx, rfl⟩ := (hread d).mp hd
    obtain ⟨htable, htext⟩ := forms_of_readValue_valueText (d := ⟨c.mode, c.pin, x⟩) hcoh rfl hx
    have hsame : (Cell.mk c.mode c.pin x).sameFunction c = true := by
      simp [sameFunction, Contents.sameFunction, htable]
    refine ⟨hsame, rfl, rfl, htable, ?_⟩
    rw [attributeText, attributeText, htext]
    rfl

/-- A chain of 129 operations is refused as it is written for logic, and read as it is written for a
memory. -/
theorem ofAttributeAt_attributeText_zeroChain :
    ∃ x, Contents.ofEquationAt (.zeroChain 129) 1 = .ok x ∧
      (¬∃ d, ofAttributeAt (attributeText ⟨.lut, some "O6", x⟩) 1 = .ok d) ∧
      ∃ d, ofAttributeAt (attributeText ⟨.rom, some "O6", x⟩) 1 = .ok d ∧
        d.attributeText = attributeText ⟨.rom, some "O6", x⟩ := by
  have hx : Contents.ofEquationAt (.zeroChain 129) 1 =
      .ok ⟨⟨1, by decide, by decide⟩, .equation (.zeroChain 129) none⟩ := rfl
  have hreachable (m : Mode) := Reachable.made m (some "O6") (.built (.equation hx))
  have hcost : 256 < (Equation.zeroChain 129).cost := by
    rw [Equation.cost_zeroChain]
    decide
  obtain ⟨hlut, -⟩ := ofAttributeAt_attributeText (hreachable .lut) rfl (by decide) (by simp)
  obtain ⟨hrom, hsame⟩ := ofAttributeAt_attributeText (hreachable .rom) rfl (by decide) (by simp)
  obtain ⟨d, hd⟩ := hrom.mpr (.inr (.inl rfl))
  refine ⟨_, hx, fun h => ?_, d, hd, (hsame d hd).2.2.2.2⟩
  rcases hlut.mp h with h | h | h
  · cases h
  · cases h
  · exact Nat.not_le.mpr hcost h

end Cell

end LutLogic
