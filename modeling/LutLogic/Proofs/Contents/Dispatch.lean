import LutLogic.Proofs.Error.Relocation

/-!
# Contents from a literal or an equation

Contents are made of a text by one of two parsers, and the choice looks at two characters only: a
text that starts with a radix mark goes to the parser of literals and any other to the parser of
equations. That nothing is lost by this is a fact about what the parsers refuse. A text without a
mark is no literal, which its parser finds at byte 0 (`TruthTable.ofLiteralAt_of_not_isMarked`). A
marked text is no equation, although it starts with the constant `0`: the letter of the mark stands
where the next symbol has to start, and no symbol starts with it, so the text cannot even be cut
into tokens (`Equation.ofText_of_isMarked`).

So no text is in both languages, and whatever either parser accepts is accepted. Where neither does,
the error is that of the parser that was chosen.
-/

namespace LutLogic

/-- No symbol starts with the letter of a radix mark. -/
theorem Tokens.scanFrom_mark (pos : Nat) (r : Radix) (digits : List Char) :
    scanFrom pos ('0' :: r.mark :: digits) = .error ⟨pos + 1, .unrecognizedCharacter⟩ := by
  cases r <;> rfl

/-- A text starts with a radix mark exactly if a radix and what follows can be cut off. -/
theorem isMarked_iff_exists {text : String} :
    IsMarked text ↔ ∃ (r : Radix) (digits : List Char), text.toList = '0' :: r.mark :: digits := by
  rw [IsMarked, ← Radix.isLiteral_iff, isLiteral, Option.isSome_iff_exists]
  simp only [Prod.exists, Radix.ofMark?_eq_some_iff]

/-- A marked text is no equation: it is refused at the letter of the mark. -/
theorem Equation.ofText_of_isMarked {text : String} (h : IsMarked text) :
    ofText text = .error (.parse ⟨.equation, text, 1, .unrecognizedCharacter⟩) := by
  obtain ⟨r, digits, htext⟩ := isMarked_iff_exists.mp h
  have hread : read text.toList = .error ⟨1, .unrecognizedCharacter⟩ := by
    rw [htext, read, Tokens.scan, Tokens.scanFrom_mark]
    rfl
  have hbytes : 1 ≤ Text.byteCount text.toList := by
    rw [htext, Text.byteCount]
    exact Nat.le_add_right_of_le (Char.utf8Size_pos '0')
  refine Fault.within_eq_error_iff.mpr ⟨_, hread, ?_⟩
  rw [ParseError.ofFault, Nat.min_eq_left hbytes]

/-- A text without a radix mark is no literal: it is refused where the mark would be. -/
theorem TruthTable.ofLiteralAt_of_not_isMarked {text : String} (h : ¬IsMarked text) (w : Width) :
    ofLiteralAt text w.inputs = .error (.parse ⟨.initString, text, 0, .noRadixMark⟩) := by
  have hmark : Radix.ofMark? text.toList = none := by
    rw [← Option.not_isSome_iff_eq_none]
    exact fun hsome => h (Radix.isLiteral_iff.mp hsome)
  have hread : readLiteral text.toList w = .error ⟨0, .noRadixMark⟩ := by
    rw [readLiteral, Radix.readLiteral, hmark]
    rfl
  rw [ofLiteralAt_inputs, ofLiteral]
  refine Fault.within_eq_error_iff.mpr ⟨_, hread, ?_⟩
  rw [ParseError.ofFault, Nat.zero_min]

namespace Contents

/-- No text is both a literal and an equation. -/
theorem not_literal_and_equation (text : String) (w : Width) :
    ¬((∃ t, TruthTable.ofLiteralAt text w.inputs = .ok t) ∧
      ∃ e, Equation.ofText text = .ok e) := by
  rintro ⟨⟨t, ht⟩, e, he⟩
  by_cases hmark : IsMarked text
  · cases he.symm.trans (Equation.ofText_of_isMarked hmark)
  · cases ht.symm.trans (TruthTable.ofLiteralAt_of_not_isMarked hmark w)

/-! ## The parser that is chosen -/

/-- A literal that was read at a width gives contents of this width, written as its table. -/
theorem ofTableAt_of_literal {text : String} {w : Width} {t : TruthTable}
    (h : TruthTable.ofLiteralAt text w.inputs = .ok t) :
    ofTableAt t w.inputs = .ok ⟨w, .table t none⟩ := by
  have hwidth : t.width = w :=
    TruthTable.width_of_readLiteral (TruthTable.ofLiteralAt_inputs_eq_ok_iff.mp h)
  rw [ofTableAt_inputs, ofTable_of_width hwidth]

/-- An equation that was read has no pin that could be refused, so it gives contents that are
written as it. -/
theorem ofEquationAt_of_text {text : String} {e : Equation} (h : Equation.ofText text = .ok e)
    (w : Width) : ofEquationAt e w.inputs = .ok ⟨w, .equation e none⟩ :=
  ofEquationAt_inputs (Equation.within_of_read (Fault.within_eq_ok_iff.mp h)) w

/-- A marked text gives the contents of its table, or the error of the parser of literals. -/
theorem ofText_of_isMarked {text : String} (h : IsMarked text) (w : Width) :
    ofText text w = (TruthTable.ofLiteralAt text w.inputs).map fun t => ⟨w, .table t none⟩ := by
  have hread : ofText text w = ofLiteral text w.inputs := if_pos (Radix.isLiteral_iff.mpr h)
  rw [hread, ofLiteral, Width.ofNat_inputs, TruthTable.ofLiteralAt_inputs]
  cases ht : TruthTable.ofLiteral text w with
  | error error => exact bind_eq_error_iff.mpr (.inr ⟨w, rfl, bind_eq_error_iff.mpr (.inl ht)⟩)
  | ok t => exact bind_eq_ok_iff.mpr ⟨w, rfl, bind_eq_ok_iff.mpr ⟨t, ht, rfl⟩⟩

/-- Any other text gives the contents of its equation, or the error of the parser of equations. -/
theorem ofText_of_not_isMarked {text : String} (h : ¬IsMarked text) (w : Width) :
    ofText text w = (Equation.ofText text).map fun e => ⟨w, .equation e none⟩ := by
  have hread : ofText text w = ofEquationText text w.inputs :=
    if_neg fun hliteral => h (Radix.isLiteral_iff.mp hliteral)
  rw [hread, ofEquationText]
  cases he : Equation.ofText text with
  | error error => rfl
  | ok e => exact ofEquationAt_of_text he w

/-- A text is accepted exactly if one of the two parsers accepts it, and gives what the constructor
for the table or for the equation makes of what was read. -/
theorem ofText_eq_ok_iff_parsed {text : String} {w : Width} {c : Contents} :
    ofText text w = .ok c ↔
      (∃ t, TruthTable.ofLiteralAt text w.inputs = .ok t ∧ ofTableAt t w.inputs = .ok c) ∨
        ∃ e, Equation.ofText text = .ok e ∧ ofEquationAt e w.inputs = .ok c := by
  by_cases hmark : IsMarked text
  · have hnone (e : Equation) : Equation.ofText text ≠ .ok e := by
      rw [Equation.ofText_of_isMarked hmark]
      nofun
    rw [ofText_of_isMarked hmark, map_eq_ok_iff]
    constructor
    · rintro ⟨t, ht, rfl⟩
      exact .inl ⟨t, ht, ofTableAt_of_literal ht⟩
    · rintro (⟨t, ht, hc⟩ | ⟨e, he, -⟩)
      · exact ⟨t, ht, Except.ok.inj ((ofTableAt_of_literal ht).symm.trans hc)⟩
      · exact absurd he (hnone e)
  · have hnone (t : TruthTable) : TruthTable.ofLiteralAt text w.inputs ≠ .ok t := by
      rw [TruthTable.ofLiteralAt_of_not_isMarked hmark]
      nofun
    rw [ofText_of_not_isMarked hmark, map_eq_ok_iff]
    constructor
    · rintro ⟨e, he, rfl⟩
      exact .inr ⟨e, he, ofEquationAt_of_text he w⟩
    · rintro (⟨t, ht, -⟩ | ⟨e, he, hc⟩)
      · exact absurd ht (hnone t)
      · exact ⟨e, he, Except.ok.inj ((ofEquationAt_of_text he w).symm.trans hc)⟩

/-- Where one of the two parsers accepts a text there are contents of it. -/
theorem exists_ofText_iff {text : String} {w : Width} :
    (∃ c, ofText text w = .ok c) ↔
      (∃ t, TruthTable.ofLiteralAt text w.inputs = .ok t) ∨ ∃ e, Equation.ofText text = .ok e := by
  constructor
  · rintro ⟨c, hc⟩
    obtain ⟨t, ht, -⟩ | ⟨e, he, -⟩ := ofText_eq_ok_iff_parsed.mp hc
    · exact .inl ⟨t, ht⟩
    · exact .inr ⟨e, he⟩
  · rintro (⟨t, ht⟩ | ⟨e, he⟩)
    · exact ⟨_, ofText_eq_ok_iff_parsed.mpr (.inl ⟨t, ht, ofTableAt_of_literal ht⟩)⟩
    · exact ⟨_, ofText_eq_ok_iff_parsed.mpr (.inr ⟨e, he, ofEquationAt_of_text he w⟩)⟩

/-- A text is refused exactly if the parser that its first two characters choose refuses it, and
with the error of this parser. -/
theorem ofText_eq_error_iff {text : String} {w : Width} {error : LutError} :
    ofText text w = .error error ↔ Cell.Refuses text w error := by
  by_cases hmark : IsMarked text
  · rw [ofText_of_isMarked hmark, map_eq_error_iff]
    constructor
    · exact .literal hmark
    · rintro (⟨-, h⟩ | ⟨hnot, -⟩)
      · exact h
      · exact absurd hmark hnot
  · rw [ofText_of_not_isMarked hmark, map_eq_error_iff]
    constructor
    · exact .equation hmark
    · rintro (⟨hm, -⟩ | ⟨-, h⟩)
      · exact absurd hm hmark
      · exact h

/-- To choose the parser by the radix mark loses nothing. No text is accepted both as a literal and
as an equation, and a text has contents exactly if it is accepted as one of the two: the contents of
its table or of its equation. Otherwise it is refused with the error of the parser of literals if it
starts with a mark, and with that of the parser of equations if not. -/
theorem ofText_dispatch (text : String) (w : Width) :
    ¬((∃ t, TruthTable.ofLiteralAt text w.inputs = .ok t) ∧
        ∃ e, Equation.ofText text = .ok e) ∧
      ((∃ c, ofText text w = .ok c) ↔
        (∃ t, TruthTable.ofLiteralAt text w.inputs = .ok t) ∨
          ∃ e, Equation.ofText text = .ok e) ∧
      (∀ c, ofText text w = .ok c ↔
        (∃ t, TruthTable.ofLiteralAt text w.inputs = .ok t ∧ ofTableAt t w.inputs = .ok c) ∨
          ∃ e, Equation.ofText text = .ok e ∧ ofEquationAt e w.inputs = .ok c) ∧
      ∀ error, ofText text w = .error error ↔ Cell.Refuses text w error :=
  ⟨not_literal_and_equation text w, exists_ofText_iff, fun _ => ofText_eq_ok_iff_parsed,
    fun _ => ofText_eq_error_iff⟩

/-- Behind a blank a radix mark is none: the text is refused as an equation, at the letter. -/
example : ofText " 0x1" .six = .error (.parse ⟨.equation, " 0x1", 2, .unrecognizedCharacter⟩) := by
  rfl

end Contents

end LutLogic
