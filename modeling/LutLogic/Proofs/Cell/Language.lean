import LutLogic.Proofs.Cell.RoundTrip

/-!
# The language of attributes

`IsAttribute` says what an attribute is without a reader: `#MODE:PIN=VALUE` for one of the three
keywords, a pin of ASCII letters, digits and underscores, and any text as the value. `Denotes` says
what a value stands for: the table of a literal if it starts with a radix mark, and otherwise its
equation as it is written.

Reading cuts at the first colon and then at the first equals sign before it looks at any part. This
is no restriction, for the parts of an attribute can only stand where it cuts
(`IsAttribute.unique`): marks that come later, blanks and characters of any size are left to the
value, where they are judged. So every branch that refuses a text refuses one that is no attribute
or whose value stands for nothing, and reading accepts exactly the attributes whose value stands for
something.
-/

namespace LutLogic

/-- A value starts with a radix mark. -/
def IsMarked (value : String) : Prop :=
  ['0', 'x'] <+: value.toList ∨ ['0', 'b'] <+: value.toList

namespace Cell

/-- A text is the attribute of a mode, a pin and a value. -/
structure IsAttribute (text : String) (m : Mode) (pin value : String) : Prop where
  /-- The parts stand between the marks, in their order. -/
  text_eq : text = "#" ++ m.keyword ++ ":" ++ pin ++ "=" ++ value
  /-- The pin has a name. -/
  pin_ne : pin ≠ ""
  /-- The name consists of letters and digits of ASCII and of underscores. -/
  pin_chars : ∀ ch ∈ pin.toList, ch.isAlphanum = true ∨ ch = '_'

/-- What a value stands for at a width: contents as they are written, with nothing remembered. -/
inductive Denotes (value : String) (w : Width) : Contents → Prop where
  /-- A marked value stands for the table of its literal. -/
  | literal {t : TruthTable} (hmark : IsMarked value)
    (h : TruthTable.ofLiteralAt value w.inputs = .ok t) : Denotes value w ⟨w, .table t none⟩
  /-- Any other value stands for its equation. -/
  | equation {e : Equation} (hmark : ¬IsMarked value) (h : Equation.ofText value = .ok e) :
    Denotes value w ⟨w, .equation e none⟩

/-! ## The parts -/

/-- The names of pins, said with the test for their characters. -/
theorem all_isPinChar_iff {pin : List Char} :
    pin.all isPinChar = true ↔ ∀ ch ∈ pin, ch.isAlphanum = true ∨ ch = '_' := by
  simp only [List.all_eq_true, isPinChar, Bool.or_eq_true, beq_iff_eq]

/-- A text is an attribute exactly if its characters are those of the parts and the pin is
proper. -/
theorem isAttribute_iff {text : String} {m : Mode} {pin value : String} :
    IsAttribute text m pin value ↔ text.toList = attributeChars m pin.toList value.toList ∧
      pin.toList ≠ [] ∧ pin.toList.all isPinChar = true := by
  have hchars : ("#" ++ m.keyword ++ ":" ++ pin ++ "=" ++ value).toList =
      attributeChars m pin.toList value.toList := by
    simp [attributeChars, String.toList_append]
  have hnil : pin.toList ≠ [] ↔ pin ≠ "" := not_congr String.toList_eq_nil_iff
  rw [hnil, all_isPinChar_iff, ← hchars, String.toList_inj]
  exact ⟨fun h => ⟨h.text_eq, h.pin_ne, h.pin_chars⟩, fun h => ⟨h.1, h.2.1, h.2.2⟩⟩

/-- The characters of an attribute determine its parts: the keyword ends at the first colon and the
pin at the first equals sign after it. -/
theorem attributeChars_inj {m m' : Mode} {pin pin' value value' : List Char}
    (hpin : pin.all isPinChar = true) (hpin' : pin'.all isPinChar = true)
    (h : attributeChars m pin value = attributeChars m' pin' value') :
    m = m' ∧ pin = pin' ∧ value = value' := by
  have hbody := (List.cons.inj h).2
  have hcolon : (m.keyword.toList, pin ++ '=' :: value) =
      (m'.keyword.toList, pin' ++ '=' :: value') := by
    rw [← Option.some.injEq, ← splitAtFirst_keyword, ← splitAtFirst_keyword, hbody]
  obtain ⟨hkeyword, hrest⟩ := Prod.mk.inj hcolon
  have hequals : (pin, value) = (pin', value') := by
    rw [← Option.some.injEq, ← splitAtFirst_pin value hpin, ← splitAtFirst_pin value' hpin', hrest]
  obtain ⟨hname, hvalue⟩ := Prod.mk.inj hequals
  have hmode : Mode.read m.keyword.toList = .ok m := Mode.read_eq_ok_iff.mpr rfl
  have hmode' : Mode.read m.keyword.toList = .ok m' := Mode.read_eq_ok_iff.mpr hkeyword
  exact ⟨Except.ok.inj (hmode.symm.trans hmode'), hname, hvalue⟩

/-- The parts of an attribute are determined by its text. -/
theorem IsAttribute.unique {text : String} {m m' : Mode} {pin pin' value value' : String}
    (h : IsAttribute text m pin value) (h' : IsAttribute text m' pin' value') :
    m = m' ∧ pin = pin' ∧ value = value' := by
  obtain ⟨htext, -, hpin⟩ := isAttribute_iff.mp h
  obtain ⟨htext', -, hpin'⟩ := isAttribute_iff.mp h'
  obtain ⟨hm, hname, hvalue⟩ := attributeChars_inj hpin hpin' (htext.symm.trans htext')
  exact ⟨hm, String.toList_inj.mp hname, String.toList_inj.mp hvalue⟩

/-! ## The value -/

/-- The table of a literal has the width that it is read at, so it is not resized. -/
theorem map_readLiteral_eq_ok_iff {text : List Char} {w : Width} {d : Contents} :
    (TruthTable.readLiteral text w).map (Contents.ofTable · w) = .ok d ↔
      ∃ t, TruthTable.readLiteral text w = .ok t ∧ ⟨w, .table t none⟩ = d := by
  rw [map_eq_ok_iff]
  refine exists_congr fun t => and_congr_right fun ht => ?_
  have hkept : Contents.ofTable t w = ⟨w, .table t none⟩ :=
    Contents.ofTable_of_width (TruthTable.width_of_readLiteral ht)
  rw [hkept]

/-- A value is read as what it stands for. -/
theorem readValue_eq_ok_iff {value : String} {w : Width} {d : Contents} :
    readValue value.toList w = .ok d ↔ Denotes value w d := by
  have hmark : isLiteral value.toList = true ↔ IsMarked value := Radix.isLiteral_iff
  by_cases hmarked : IsMarked value
  · rw [readValue, if_pos (hmark.mpr hmarked), map_readLiteral_eq_ok_iff]
    constructor
    · rintro ⟨t, ht, rfl⟩
      exact .literal hmarked (TruthTable.ofLiteralAt_inputs_eq_ok_iff.mpr ht)
    · intro h
      cases h with
      | literal _ ht => exact ⟨_, TruthTable.ofLiteralAt_inputs_eq_ok_iff.mp ht, rfl⟩
      | equation hnot _ => exact absurd hmarked hnot
  · rw [readValue, if_neg (fun hliteral => hmarked (hmark.mp hliteral)), map_eq_ok_iff]
    constructor
    · rintro ⟨e, he, rfl⟩
      exact .equation hmarked (Fault.within_eq_ok_iff.mpr he)
    · intro h
      cases h with
      | literal hm _ => exact absurd hm hmarked
      | equation _ he => exact ⟨_, Fault.within_eq_ok_iff.mp he, rfl⟩

/-! ## Attributes -/

/-- An attribute is read, at the count of inputs of a width, as a cell of its mode and its pin with
what its value stands for, and nothing else is read. -/
theorem ofAttributeAt_inputs_eq_ok_iff {text : String} {w : Width} {c : Cell} :
    ofAttributeAt text w.inputs = .ok c ↔ ∃ m pin value d, IsAttribute text m pin value ∧
      Denotes value w d ∧ c = ⟨m, some pin, d⟩ := by
  rw [ofAttributeAt_inputs, ofAttribute_eq, Fault.within_eq_ok_iff, read_eq_ok_iff]
  constructor
  · rintro ⟨m, pin, value, d, htext, hne, hpin, hd, rfl⟩
    refine ⟨m, String.ofList pin, String.ofList value, d, isAttribute_iff.mpr ?_,
      readValue_eq_ok_iff.mp ?_, rfl⟩
    · rw [String.toList_ofList, String.toList_ofList]
      exact ⟨htext, hne, hpin⟩
    · rw [String.toList_ofList]
      exact hd
  · rintro ⟨m, pin, value, d, hattribute, hd, rfl⟩
    obtain ⟨htext, hne, hpin⟩ := isAttribute_iff.mp hattribute
    exact ⟨m, pin.toList, value.toList, d, htext, hne, hpin, readValue_eq_ok_iff.mpr hd,
      by rw [String.ofList_toList]⟩

/-- A count of inputs is reported exactly if it is no width, whatever the text. -/
theorem ofAttributeAt_eq_inputCount_iff {text : String} {count : Nat} :
    ofAttributeAt text count = .error (.inputCount count) ↔ ¬(1 ≤ count ∧ count ≤ 6) := by
  have hread : ofAttributeAt text count =
      Width.ofNat count >>= fun w => Fault.within .cell text (read text.toList w) :=
    congrArg (Width.ofNat count >>= ·) (funext fun w => ofAttribute_eq text w)
  rw [hread]
  exact Width.ofNat_bind_within_eq_inputCount_iff

/-- At a width exactly those texts are read that are an attribute `#MODE:PIN=VALUE` of one of the
three modes, a pin of ASCII letters, digits and underscores, and a value that stands for something:
for the table of its literal if it starts with `0x` or `0b`, and otherwise for its equation. The
cell has this mode, this pin and these contents, as they are written. No text has two such forms,
and where the count of inputs is no width it is reported for every text. -/
theorem ofAttributeAt_eq_ok_iff (text : String) :
    (∀ (w : Width) (c : Cell), ofAttributeAt text w.inputs = .ok c ↔
        ∃ m pin value d, IsAttribute text m pin value ∧ Denotes value w d ∧
          c = ⟨m, some pin, d⟩) ∧
      (∀ m pin value m' pin' value', IsAttribute text m pin value →
        IsAttribute text m' pin' value' → m = m' ∧ pin = pin' ∧ value = value') ∧
      ∀ count, ofAttributeAt text count = .error (.inputCount count) ↔
        ¬(1 ≤ count ∧ count ≤ 6) :=
  ⟨fun _ _ => ofAttributeAt_inputs_eq_ok_iff, fun _ _ _ _ _ _ h h' => h.unique h',
    fun _ => ofAttributeAt_eq_inputCount_iff⟩

/-- `#ROM:O_5=0x6` has these parts alone, it is read at two pins with the table of its literal, and
at seven pins the count is reported. -/
theorem ofAttributeAt_eq_ok_iff_rom :
    ∃ c, ofAttributeAt "#ROM:O_5=0x6" 2 = .ok c ∧ c.mode = .rom ∧ c.pin = some "O_5" ∧
      c.contents.table.value = 6 ∧
      (∀ m pin value, IsAttribute "#ROM:O_5=0x6" m pin value →
        m = .rom ∧ pin = "O_5" ∧ value = "0x6") ∧
      ofAttributeAt "#ROM:O_5=0x6" 7 = .error (.inputCount 7) := by
  have hparts : IsAttribute "#ROM:O_5=0x6" .rom "O_5" "0x6" := ⟨rfl, by decide, by simp⟩
  have hvalue : Denotes "0x6" ⟨2, by decide, by decide⟩
      ⟨⟨2, by decide, by decide⟩, .table (.ofValue 6 ⟨2, by decide, by decide⟩) none⟩ :=
    .literal (.inl ⟨['6'], rfl⟩) rfl
  obtain ⟨hread, hunique, hcount⟩ := ofAttributeAt_eq_ok_iff "#ROM:O_5=0x6"
  exact ⟨_, (hread _ _).mpr ⟨_, _, _, _, hparts, hvalue, rfl⟩, rfl, rfl, rfl,
    fun m pin value h => hunique m pin value _ _ _ h hparts, (hcount 7).mpr (by decide)⟩

end Cell

end LutLogic
