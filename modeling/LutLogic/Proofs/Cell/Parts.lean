import LutLogic.Cell.Attribute
import LutLogic.Proofs.Equation.Reprint
import LutLogic.Proofs.TruthTable.Literal

/-!
# The parts of an attribute

An attribute is cut at its first colon and at the first equals sign after it. No keyword has a colon
and no pin an equals sign, so the parts that an attribute is put together from are the parts that it
is cut into, and a text is cut exactly if it was put together so (`readParts_eq_ok_iff`).

Of the value a parser makes a table or an equation, and a constructor the contents. Each of them
judges the number of pins again, or the pins. `readValue` is the parsers alone. At a width the
constructors refuse nothing, and to relocate the error of a value is to move the fault that was
found in it, since an attribute ends where its value does (`contentsWithin_inputs`). So an attribute
is read as `read` reads it, and only faults in its characters are reported (`ofAttribute_eq`).
-/

namespace LutLogic

/-- In a text that ends in a value, the error for a fault in the value is relocated to the error for
the fault that is moved by what stands before it. -/
theorem ParseError.relocate_ofFault {target : ParseTarget} {text value : String} {base : Nat}
    (hbytes : Text.byteCount text.toList = base + Text.byteCount value.toList) (f : Fault) :
    (ofFault target value f).relocate base text = ofFault .cell text (f.shift base) := by
  -- An offset beyond the end is moved back to the end, and both texts end at the same place.
  have hoffset : min (base + min f.offset (Text.byteCount value.toList))
      (Text.byteCount text.toList) = min (base + f.offset) (Text.byteCount text.toList) := by
    omega
  exact congrArg (fun offset => ParseError.mk .cell text offset f.cause) hoffset

/-- In a text that ends in a value, to relocate the errors of the value is to move the faults that
are found in it. -/
theorem Fault.mapError_relocate_within {α : Type} {target : ParseTarget} {text value : String}
    {base : Nat} (hbytes : Text.byteCount text.toList = base + Text.byteCount value.toList)
    (r : Except Fault α) :
    (Fault.within target value r).mapError (LutError.relocate base text) =
      Fault.within .cell text (Fault.located base r) := by
  cases r with
  | ok a => rfl
  | error f =>
    exact congrArg (fun e => (Except.error (.parse e) : Except LutError α))
      (ParseError.relocate_ofFault hbytes f)

namespace Contents

/-- At the number of inputs of a width a table is taken as contents of this width. -/
theorem ofTableAt_inputs (t : TruthTable) (w : Width) :
    ofTableAt t w.inputs = .ok (ofTable t w) := by
  rw [ofTableAt, Width.ofNat_inputs]
  rfl

/-- At the number of inputs of a width an equation of pins that there are is taken as it is
written. -/
theorem ofEquationAt_inputs {e : Equation} (h : e.Within maxInputs) (w : Width) :
    ofEquationAt e w.inputs = .ok ⟨w, .equation e none⟩ := by
  refine bind_eq_ok_iff.mpr ⟨w, Width.ofNat_inputs w, ?_⟩
  exact map_eq_ok_iff.mpr ⟨e, h.checked, rfl⟩

end Contents

namespace Mode

/-- Characters are read as a mode exactly if they are its keyword. -/
theorem read_eq_ok_iff {text : List Char} {m : Mode} :
    read text = .ok m ↔ text = m.keyword.toList := by
  have hkeyword : ofKeyword? (String.ofList text) = some m ↔ text = m.keyword.toList := by
    rw [ofKeyword?_eq_some_iff]
    constructor
    · intro h
      rw [← h, String.toList_ofList]
    · rintro rfl
      exact String.ofList_toList
  rw [← hkeyword, read]
  cases ofKeyword? (String.ofList text) with
  | none => simp
  | some m' => simp

end Mode

namespace Cell

/-! ## The parts of an attribute -/

/-- The characters of an attribute with the given parts. -/
def attributeChars (m : Mode) (pin value : List Char) : List Char :=
  '#' :: (m.keyword.toList ++ ':' :: (pin ++ '=' :: value))

/-- The characters of an attribute before its value. -/
def charsBeforeValue (m : Mode) (pin : List Char) : List Char :=
  '#' :: (m.keyword.toList ++ ':' :: (pin ++ ['=']))

/-- The value is what follows in an attribute. -/
theorem charsBeforeValue_append (m : Mode) (pin value : List Char) :
    charsBeforeValue m pin ++ value = attributeChars m pin value := by
  simp [charsBeforeValue, attributeChars]

/-- Before the value there are the mode, the pin and three marks of one byte each. -/
theorem byteCount_charsBeforeValue (m : Mode) (pin : List Char) :
    Text.byteCount (charsBeforeValue m pin) =
      2 + Text.byteCount m.keyword.toList + Text.byteCount pin + 1 := by
  simp only [charsBeforeValue, Text.byteCount, Text.byteCount_append]
  change 1 + (Text.byteCount m.keyword.toList + (1 + (Text.byteCount pin + (1 + 0)))) = _
  omega

/-- The text of a cell with a value is the attribute of its parts. -/
theorem toList_textWith (c : Cell) (value : String) :
    (c.textWith value).toList = attributeChars c.mode (c.pin.getD "").toList value.toList := by
  simp [textWith, attributeChars, String.toList_append]

/-- Characters are read as a pin exactly if there are any and all of them may stand in one. -/
theorem readPin_eq_ok_iff {text : List Char} {pin : String} :
    readPin text = .ok pin ↔ text ≠ [] ∧ text.all isPinChar = true ∧ pin = String.ofList text := by
  unfold readPin
  split
  · next hnil => simp [hnil]
  · next hne =>
    split
    · next hall => simp [hne, hall, eq_comm]
    · next hall => simp [hall]

/-- After a keyword an attribute is cut at the colon, for no keyword has one. -/
theorem splitAtFirst_keyword (m : Mode) (rest : List Char) :
    Text.splitAtFirst ':' (m.keyword.toList ++ ':' :: rest) = some (m.keyword.toList, rest) := by
  have hcolon : ':' ∉ m.keyword.toList := by cases m <;> decide
  exact Text.splitAtFirst_eq_some_iff.mpr ⟨rfl, hcolon⟩

/-- After a pin an attribute is cut at the equals sign, for no pin has one. -/
theorem splitAtFirst_pin {pin : List Char} (value : List Char) (hpin : pin.all isPinChar = true) :
    Text.splitAtFirst '=' (pin ++ '=' :: value) = some (pin, value) := by
  have hequals : '=' ∉ pin := by
    intro hmem
    have hchar := List.all_eq_true.mp hpin '=' hmem
    revert hchar
    decide
  exact Text.splitAtFirst_eq_some_iff.mpr ⟨rfl, hequals⟩

/-- An attribute of a mode and a pin is cut into them and the value. -/
theorem readParts_attributeChars (m : Mode) {pin : List Char} (value : List Char) (hne : pin ≠ [])
    (hpin : pin.all isPinChar = true) :
    readParts (attributeChars m pin value) =
      .ok ⟨m, String.ofList pin, Text.byteCount (charsBeforeValue m pin), value⟩ := by
  have hmode : Fault.located 1 (Mode.read m.keyword.toList) = .ok m :=
    Fault.located_eq_ok_iff.mpr (Mode.read_eq_ok_iff.mpr rfl)
  have hname : Fault.located (2 + Text.byteCount m.keyword.toList) (readPin pin) =
      .ok (String.ofList pin) :=
    Fault.located_eq_ok_iff.mpr (readPin_eq_ok_iff.mpr ⟨hne, hpin, rfl⟩)
  rw [attributeChars, readParts, splitAtFirst_keyword, byteCount_charsBeforeValue]
  dsimp only
  rw [hmode, splitAtFirst_pin value hpin]
  dsimp only [bind, Except.bind]
  rw [hname]
  rfl

/-- A text that is cut into parts is the attribute of a mode and a proper pin. -/
theorem exists_attributeChars_of_readParts {text : List Char} {p : Parts}
    (h : readParts text = .ok p) :
    ∃ m pin value, text = attributeChars m pin value ∧ pin ≠ [] ∧ pin.all isPinChar = true := by
  unfold readParts at h
  split at h
  · next body =>
    split at h
    · cases h
    · next modeText rest hbody =>
      obtain ⟨m, hm, h⟩ := bind_eq_ok_iff.mp h
      split at h
      · cases h
      · next pin value hrest =>
        obtain ⟨name, hname, -⟩ := bind_eq_ok_iff.mp h
        obtain ⟨hne, hpin, -⟩ := readPin_eq_ok_iff.mp (Fault.located_eq_ok_iff.mp hname)
        have hmode := Mode.read_eq_ok_iff.mp (Fault.located_eq_ok_iff.mp hm)
        obtain ⟨rfl, -⟩ := Text.splitAtFirst_eq_some_iff.mp hbody
        obtain ⟨rfl, -⟩ := Text.splitAtFirst_eq_some_iff.mp hrest
        exact ⟨m, pin, value, by rw [attributeChars, hmode], hne, hpin⟩
  · cases h

/-- A text is cut into the parts that it was put together from, and no other text is cut. -/
theorem readParts_eq_ok_iff {text : List Char} {p : Parts} :
    readParts text = .ok p ↔ ∃ m pin value, text = attributeChars m pin value ∧ pin ≠ [] ∧
      pin.all isPinChar = true ∧
      p = ⟨m, String.ofList pin, Text.byteCount (charsBeforeValue m pin), value⟩ := by
  constructor
  · intro h
    obtain ⟨m, pin, value, rfl, hne, hpin⟩ := exists_attributeChars_of_readParts h
    rw [readParts_attributeChars m value hne hpin] at h
    exact ⟨m, pin, value, rfl, hne, hpin, (Except.ok.inj h).symm⟩
  · rintro ⟨m, pin, value, rfl, hne, hpin, rfl⟩
    exact readParts_attributeChars m value hne hpin

/-! ## The value -/

/-- Reads the value of an attribute by the parser of its kind: a literal if it starts with a radix
mark, and an equation otherwise. -/
def readValue (text : List Char) (width : Width) : Except Fault Contents :=
  if isLiteral text then (TruthTable.readLiteral text width).map (Contents.ofTable · width)
  else (Equation.read text).map fun e => ⟨width, .equation e none⟩

/-- At a width the constructors refuse nothing: in a text that ends in the value, its contents are
those that are read, with the faults moved by what stands before it. -/
theorem contentsWithin_inputs {text value : String} {base : Nat}
    (hbytes : Text.byteCount text.toList = base + Text.byteCount value.toList) (w : Width) :
    contentsWithin text value base w.inputs =
      Fault.within .cell text (Fault.located base (readValue value.toList w)) := by
  by_cases hmark : isLiteral value.toList = true
  · rw [contentsWithin, if_pos hmark, TruthTable.ofLiteralAt_inputs, TruthTable.ofLiteral,
      Fault.mapError_relocate_within hbytes, readValue, if_pos hmark]
    cases TruthTable.readLiteral value.toList w with
    | error f => rfl
    | ok t => exact Contents.ofTableAt_inputs t w
  · rw [contentsWithin, if_neg hmark, Equation.ofText, Fault.mapError_relocate_within hbytes,
      readValue, if_neg hmark]
    cases he : Equation.read value.toList with
    | error f => rfl
    | ok e => exact Contents.ofEquationAt_inputs (Equation.within_of_read he) w

/-! ## The whole attribute -/

/-- Reads an attribute: its parts, and then its value as the parser of its kind does. -/
def read (text : List Char) (width : Width) : Except Fault Cell := do
  let parts ← readParts text
  let contents ← Fault.located parts.valueStart (readValue parts.value width)
  return ⟨parts.mode, some parts.pin, contents⟩

/-- An attribute of a mode and a pin is read as its value is. -/
theorem read_attributeChars (m : Mode) {pin : List Char} (value : List Char) (w : Width)
    (hne : pin ≠ []) (hpin : pin.all isPinChar = true) :
    read (attributeChars m pin value) w =
      (Fault.located (Text.byteCount (charsBeforeValue m pin)) (readValue value w)).map
        fun d => ⟨m, some (String.ofList pin), d⟩ := by
  rw [read, readParts_attributeChars m value hne hpin]
  dsimp only [bind, Except.bind]
  cases Fault.located (Text.byteCount (charsBeforeValue m pin)) (readValue value w) <;> rfl

/-- An attribute of a mode and a pin describes a cell of the contents that its value stands for. -/
theorem ofAttribute_of_toList_eq {text : String} {m : Mode} {pin value : List Char}
    (htext : text.toList = attributeChars m pin value) (hne : pin ≠ [])
    (hpin : pin.all isPinChar = true) (w : Width) :
    ofAttribute text w =
      (contentsWithin text (String.ofList value) (Text.byteCount (charsBeforeValue m pin))
        w.inputs).map fun d => ⟨m, some (String.ofList pin), d⟩ := by
  rw [ofAttribute, htext, readParts_attributeChars m value hne hpin]
  dsimp only [Fault.within, Except.mapError, bind, Except.bind]
  cases contentsWithin text (String.ofList value) (Text.byteCount (charsBeforeValue m pin))
    w.inputs <;> rfl

/-- The cell that an attribute describes is the one that is read, and where it is refused a fault in
its characters is reported. -/
theorem ofAttribute_eq (text : String) (w : Width) :
    ofAttribute text w = Fault.within .cell text (read text.toList w) := by
  cases hparts : readParts text.toList with
  | error f =>
    rw [ofAttribute, read, hparts]
    rfl
  | ok parts =>
    obtain ⟨m, pin, value, htext, hne, hpin, -⟩ := readParts_eq_ok_iff.mp hparts
    have hbytes : Text.byteCount text.toList =
        Text.byteCount (charsBeforeValue m pin) +
          Text.byteCount (String.ofList value).toList := by
      rw [htext, ← charsBeforeValue_append, Text.byteCount_append, String.toList_ofList]
    rw [ofAttribute_of_toList_eq htext hne hpin, contentsWithin_inputs hbytes,
      String.toList_ofList, Fault.map_within, htext, read_attributeChars m value w hne hpin]

/-- An attribute is accepted exactly if it has a mode and a pin and its value is accepted. -/
theorem read_eq_ok_iff {text : List Char} {w : Width} {c : Cell} :
    read text w = .ok c ↔ ∃ m pin value d, text = attributeChars m pin value ∧ pin ≠ [] ∧
      pin.all isPinChar = true ∧ readValue value w = .ok d ∧
      c = ⟨m, some (String.ofList pin), d⟩ := by
  constructor
  · intro h
    obtain ⟨parts, hparts, hread⟩ := bind_eq_ok_iff.mp h
    obtain ⟨m, pin, value, rfl, hne, hpin, rfl⟩ := readParts_eq_ok_iff.mp hparts
    obtain ⟨d, hd, hc⟩ := bind_eq_ok_iff.mp hread
    exact ⟨m, pin, value, d, rfl, hne, hpin, Fault.located_eq_ok_iff.mp hd,
      (Except.ok.inj hc).symm⟩
  · rintro ⟨m, pin, value, d, rfl, hne, hpin, hd, rfl⟩
    rw [read_attributeChars m value w hne hpin, Fault.located_eq_ok_iff.mpr hd]
    rfl

/-- At the number of inputs of a width an attribute is read at this width. -/
theorem ofAttributeAt_inputs (text : String) (w : Width) :
    ofAttributeAt text w.inputs = ofAttribute text w := by
  rw [ofAttributeAt, Width.ofNat_inputs]
  rfl

end Cell

end LutLogic
