import LutLogic.Proofs.Error.Pointing

/-!
# Errors in the value of an attribute

The value of an attribute is a literal or an equation and has the parser of its kind. `Refuses` says
with which error this parser refuses the value as a text of its own, and `IsRelocated` what an error
of the attribute keeps of it: it points to the same characters for the same cause. The offset is put
together from the bytes of the parts before the value, moved back to the end if it is beyond it, and
the fragment is cut again there. Nothing is lost on the way, for a value is refused within it, and
behind its first part a text goes on as the second part does (`Text.afterBytes_byteCount_add`).

The contents of a value are made by a parser and a constructor, each of which judges the width or
the pins again. At a width none of these checks can fail (`ofAttribute_eq`), so an attribute is
refused with parse errors about the attribute only.
-/

namespace LutLogic

namespace ParseError

/-- An error of an attribute is the error `e` of the value that follows the characters `before`. -/
structure IsRelocated (d e : ParseError) (before text : String) : Prop where
  /-- The kind of text is the attribute. -/
  target_eq : d.target = .cell
  /-- The input is the whole attribute. -/
  input_eq : d.input = text
  /-- The offset counts the bytes before the value. -/
  offset_eq : d.offset = before.utf8ByteSize + e.offset
  /-- The fragment is that of the value. -/
  fragment_eq : d.fragment = e.fragment
  /-- The cause is that of the value. -/
  cause_eq : d.cause = e.cause

/-- An error within a value is relocated without loss into a text that ends in the value. -/
theorem isRelocated_relocate {e : ParseError} {before value : String} (hinput : e.input = value)
    (hle : e.offset ≤ value.utf8ByteSize) :
    (e.relocate before.utf8ByteSize (before ++ value)).IsRelocated e before (before ++ value) := by
  have hoffset : (e.relocate before.utf8ByteSize (before ++ value)).offset =
      before.utf8ByteSize + e.offset := by
    refine offset_ofFault_of_le ?_
    rw [Text.byteCount_toList, String.utf8ByteSize_append]
    exact Nat.add_le_add_left hle _
  have hrest : Text.afterBytes (before.utf8ByteSize + e.offset) (before ++ value).toList =
      Text.afterBytes e.offset value.toList := by
    rw [String.toList_append, ← Text.byteCount_toList]
    exact Text.afterBytes_byteCount_add _ _ _
  refine ⟨rfl, rfl, hoffset, ?_, rfl⟩
  rw [fragment, hoffset, fragment, hinput]
  exact congrArg String.ofList hrest

end ParseError

namespace Cell

open Text

/-! ## The value -/

/-- The parser for a value refuses it: that of literals if it starts with a radix mark, and that of
equations otherwise. -/
inductive Refuses (value : String) (w : Width) (error : LutError) : Prop where
  /-- A marked value is refused as a literal. -/
  | literal (hmark : IsMarked value) (h : TruthTable.ofLiteralAt value w.inputs = .error error)
  /-- Any other value is refused as an equation. -/
  | equation (hmark : ¬IsMarked value) (h : Equation.ofText value = .error error)

/-- A value is refused with a parse error about it, at an offset within it. -/
theorem Refuses.exists_parse {value : String} {w : Width} {error : LutError}
    (h : Refuses value w error) :
    ∃ e, error = .parse e ∧ e.input = value ∧ e.offset ≤ value.utf8ByteSize := by
  cases h with
  | literal _ h =>
    rw [TruthTable.ofLiteralAt_inputs, TruthTable.ofLiteral, Fault.within_eq_error_iff] at h
    obtain ⟨f, -, rfl⟩ := h
    exact ⟨_, rfl, rfl, ParseError.offset_ofFault_le _ _ _⟩
  | equation _ h =>
    obtain ⟨f, -, rfl⟩ := Fault.within_eq_error_iff.mp h
    exact ⟨_, rfl, rfl, ParseError.offset_ofFault_le _ _ _⟩

/-- What the parser for a value refuses is refused with its error, relocated. -/
theorem Refuses.contentsWithin_eq {value : String} {w : Width} {error : LutError}
    (h : Refuses value w error) (text : String) (base : Nat) :
    contentsWithin text value base w.inputs = .error (error.relocate base text) := by
  have hmark : isLiteral value.toList = true ↔ IsMarked value := Radix.isLiteral_iff
  cases h with
  | literal hmarked h =>
    rw [contentsWithin, if_pos (hmark.mpr hmarked), h]
    rfl
  | equation hnot h =>
    rw [contentsWithin, if_neg (fun hliteral => hnot (hmark.mp hliteral)), h]
    rfl

/-! ## Attributes -/

/-- An attribute is read as the contents of its value are made. -/
theorem IsAttribute.ofAttributeAt_inputs {text pin value : String} {m : Mode}
    (h : IsAttribute text m pin value) (w : Width) :
    ofAttributeAt text w.inputs =
      (contentsWithin text value ("#" ++ m.keyword ++ ":" ++ pin ++ "=").utf8ByteSize
        w.inputs).map fun d => ⟨m, some pin, d⟩ := by
  obtain ⟨htext, hne, hpin⟩ := isAttribute_iff.mp h
  have hbefore : ("#" ++ m.keyword ++ ":" ++ pin ++ "=").toList =
      charsBeforeValue m pin.toList := by
    simp [charsBeforeValue, String.toList_append]
  rw [Cell.ofAttributeAt_inputs, ofAttribute_of_toList_eq htext hne hpin, ← hbefore,
    byteCount_toList, String.ofList_toList, String.ofList_toList]

/-- Where an attribute has a mode, a pin and a value, it is read as the contents of its value are
made. If the parser for the value refuses it, with whatever error, then this is a parse error, and
the attribute is refused with this error relocated: with the same fragment and cause, at the offset
that counts the bytes before the value. Whatever the text, it is refused with a parse error about
the whole attribute. -/
theorem isRelocated_of_refused (text : String) (w : Width) :
    (∀ m pin value, IsAttribute text m pin value →
        ofAttributeAt text w.inputs =
          (contentsWithin text value ("#" ++ m.keyword ++ ":" ++ pin ++ "=").utf8ByteSize
            w.inputs).map fun d => ⟨m, some pin, d⟩) ∧
      (∀ m pin value error, IsAttribute text m pin value → Refuses value w error →
        ∃ e d, error = .parse e ∧ ofAttributeAt text w.inputs = .error (.parse d) ∧
          d.IsRelocated e ("#" ++ m.keyword ++ ":" ++ pin ++ "=") text) ∧
      ∀ error, ofAttributeAt text w.inputs = .error error →
        ∃ d, error = .parse d ∧ d.target = .cell ∧ d.input = text := by
  refine ⟨fun m pin value h => h.ofAttributeAt_inputs w, ?_, ?_⟩
  · intro m pin value error h hrefuses
    obtain ⟨e, rfl, hinput, hle⟩ := hrefuses.exists_parse
    refine ⟨e, _, rfl, ?_, h.text_eq ▸ ParseError.isRelocated_relocate hinput hle⟩
    rw [h.ofAttributeAt_inputs, hrefuses.contentsWithin_eq]
    rfl
  · intro error herror
    rw [Cell.ofAttributeAt_inputs, ofAttribute_eq] at herror
    obtain ⟨f, -, rfl⟩ := Fault.within_eq_error_iff.mp herror
    exact ⟨_, rfl, rfl, rfl⟩

/-- In `#RAM:O_6=0x1é2` the character of two bytes is no digit: as a literal the value is refused at
byte 3, and the attribute at byte 12. The equation in `#RAM:O_6=(A1*` is refused at its end, and so
is the attribute; where no value is given, that is reported for the attribute. -/
theorem isRelocated_of_refused_wide :
    (∃ e d, TruthTable.ofLiteralAt "0x1é2" 3 = .error (.parse e) ∧ e.offset = 3 ∧
        ofAttributeAt "#RAM:O_6=0x1é2" 3 = .error (.parse d) ∧ d.offset = 12 ∧
        d.fragment = e.fragment ∧ e.fragment = "é2" ∧ d.cause = .unrecognizedCharacter) ∧
      (∃ d, ofAttributeAt "#RAM:O_6=(A1*" 3 = .error (.parse d) ∧ d.offset = 13 ∧
        d.fragment = "" ∧ d.cause = .expectedOperand .finish) ∧
      ∃ d, ofAttributeAt "#RAM:O_6" 3 = .error (.parse d) ∧ d.target = .cell ∧
        d.input = "#RAM:O_6" := by
  have hthree : 1 ≤ 3 ∧ 3 ≤ 6 := by decide
  refine ⟨?_, ?_, ?_⟩
  · have hparts : IsAttribute "#RAM:O_6=0x1é2" .ram "O_6" "0x1é2" := ⟨rfl, by decide, by simp⟩
    have hrefuses : Refuses "0x1é2" ⟨3, hthree.1, hthree.2⟩ _ := .literal (.inl ⟨_, rfl⟩) rfl
    obtain ⟨e, d, he, hd, hrel⟩ := (isRelocated_of_refused _ _).2.1 _ _ _ _ hparts hrefuses
    cases he
    exact ⟨_, d, rfl, rfl, hd, hrel.offset_eq, hrel.fragment_eq, by decide, hrel.cause_eq⟩
  · have hparts : IsAttribute "#RAM:O_6=(A1*" .ram "O_6" "(A1*" := ⟨rfl, by decide, by simp⟩
    have hmark : ¬IsMarked "(A1*" := fun h => absurd (Radix.isLiteral_iff.mpr h) (by decide)
    have hrefuses : Refuses "(A1*" ⟨3, hthree.1, hthree.2⟩ _ := .equation hmark rfl
    obtain ⟨e, d, he, hd, hrel⟩ := (isRelocated_of_refused _ _).2.1 _ _ _ _ hparts hrefuses
    cases he
    exact ⟨d, hd, hrel.offset_eq, hrel.fragment_eq.trans (by decide), hrel.cause_eq⟩
  · obtain ⟨d, hd, htarget, hinput⟩ :=
      (isRelocated_of_refused "#RAM:O_6" ⟨3, hthree.1, hthree.2⟩).2.2 _ rfl
    cases hd
    exact ⟨_, rfl, htarget, hinput⟩

end Cell

end LutLogic
