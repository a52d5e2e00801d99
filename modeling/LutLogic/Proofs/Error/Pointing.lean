import LutLogic.Proofs.Cell.Language
import LutLogic.Proofs.Equation.Faults

/-!
# Parse errors point into their text

Every reader walks over characters and adds up their bytes, so the offset of a fault is a place of
the text that it reads. A fault in the value of an attribute is moved by the bytes before the value,
and there it is at a place of the attribute exactly if it was at one of the value.

The one exception is a literal with too many digits. The limit on the digits is reported at a fixed
number of bytes, and where characters of several bytes stand among the digits, one of them may lie
across it: `LimitWithinChar` says this of a text, and it is exactly then that the error points
nowhere.
-/

namespace LutLogic

/-! ## Literals -/

namespace Radix

open Text

/-- A literal has more digits than fit 64 bits, and the limit, which is counted in bytes, lies
within a character. -/
def LimitWithinChar (text : List Char) : Prop :=
  ∃ (r : Radix) (digits : List Char), text = '0' :: r.mark :: digits ∧
    r.capacity < byteCount digits ∧ ¬IsPlace 0 digits r.capacity

/-- Behind the marks of a literal the limit is judged on the digits. -/
theorem limitWithinChar_iff (r : Radix) (digits : List Char) :
    LimitWithinChar ('0' :: r.mark :: digits) ↔
      r.capacity < byteCount digits ∧ ¬IsPlace 0 digits r.capacity := by
  constructor
  · rintro ⟨r', digits', htext, hlimit⟩
    -- The radix and the digits of a text are determined.
    have hsame := ofMark?_eq_some_iff.mpr htext
    rw [ofMark?_mark] at hsame
    cases hsame
    exact hlimit
  · exact fun hlimit => ⟨r, digits, rfl, hlimit⟩

/-- A digit that is refused is refused at its place. -/
theorem isPlace_of_readDigits {r : Radix} {pos acc : Nat} {cs : List Char} {f : Fault}
    (h : r.readDigits pos acc cs = .error f) : IsPlace pos cs f.offset := by
  induction cs generalizing pos acc with
  | nil => cases h
  | cons c cs ih =>
    unfold readDigits at h
    split at h
    · cases h
      exact isPlace_start pos _
    · exact IsPlace.cons (ih h)

/-- The marks of a literal take two bytes. -/
theorem byteCount_mark (r : Radix) : byteCount ['0', r.mark] = 2 := by
  cases r <;> rfl

/-- After the marks of a literal the places are those of the digits. -/
theorem isPlace_digits_iff {r : Radix} {digits : List Char} {n : Nat} :
    IsPlace 0 ('0' :: r.mark :: digits) (2 + n) ↔ IsPlace 0 digits n := by
  rw [← byteCount_mark r]
  exact isPlace_append_iff ['0', r.mark]

/-- A literal is refused within its text, and at a place unless the limit on its digits is reported
and lies within a character. -/
theorem isPlace_of_readLiteral_iff {text : List Char} {f : Fault}
    (h : readLiteral text = .error f) :
    f.offset ≤ byteCount text ∧ (IsPlace 0 text f.offset ↔ ¬LimitWithinChar text) := by
  -- A fault at a place is within the text, and the limit must not lie within a character.
  have hplace (hp : IsPlace 0 text f.offset) (hnot : ¬LimitWithinChar text) :
      f.offset ≤ byteCount text ∧ (IsPlace 0 text f.offset ↔ ¬LimitWithinChar text) :=
    ⟨hp.le, iff_of_true hp hnot⟩
  unfold readLiteral at h
  split at h
  · next hmark =>
    cases h
    refine hplace (isPlace_start 0 text) ?_
    rintro ⟨r, digits, rfl, -⟩
    rw [ofMark?_mark] at hmark
    cases hmark
  · next r digits hmark =>
    have htext := ofMark?_eq_some_iff.mp hmark
    have hlimit : LimitWithinChar text ↔
        r.capacity < byteCount digits ∧ ¬IsPlace 0 digits r.capacity := by
      rw [htext]
      exact limitWithinChar_iff r digits
    have hbytes : byteCount text = 2 + byteCount digits := by
      have hsplit : text = ['0', r.mark] ++ digits := htext
      rw [hsplit, byteCount_append, byteCount_mark]
    split at h
    · next hnil =>
      cases h
      refine hplace ?_ fun hl => ?_
      · rw [htext]
        exact isPlace_digits_iff.mpr (isPlace_start 0 digits)
      · rw [hnil] at hlimit
        exact Nat.not_lt_zero _ (hlimit.mp hl).1
    · split at h
      · next hmany =>
        cases h
        refine ⟨?_, ?_⟩
        · change 2 + r.capacity ≤ byteCount text
          omega
        · rw [hlimit, not_and, not_not, htext]
          exact isPlace_digits_iff.trans ⟨fun hp _ => hp, fun hp => hp hmany⟩
      · next hfew =>
        refine hplace ?_ fun hl => hfew (hlimit.mp hl).1
        have hp := isPlace_of_readDigits h
        rw [htext]
        refine IsPlace.append ['0', r.mark] ?_
        rwa [byteCount_mark]

end Radix

namespace Cell

open Text

/-! ## Attributes -/

/-- A value is refused within it, and at a place unless it is a literal whose limit on the digits is
reported and lies within a character. -/
theorem isPlace_of_readValue_iff {value : List Char} {w : Width} {f : Fault}
    (h : readValue value w = .error f) :
    f.offset ≤ byteCount value ∧
      (IsPlace 0 value f.offset ↔ ¬Radix.LimitWithinChar value) := by
  unfold readValue at h
  split at h
  · exact Radix.isPlace_of_readLiteral_iff (map_eq_error_iff.mp (map_eq_error_iff.mp h))
  · next hnot =>
    have hplace := Equation.isPlace_of_read (map_eq_error_iff.mp h)
    refine ⟨hplace.le, iff_of_true hplace ?_⟩
    rintro ⟨r, digits, rfl, -⟩
    rw [isLiteral, Radix.ofMark?_mark] at hnot
    exact hnot rfl

/-- The name of a pin is refused at a place. -/
theorem isPlace_of_readPin {text : List Char} {f : Fault} (h : readPin text = .error f) :
    IsPlace 0 text f.offset := by
  unfold readPin at h
  split at h
  · cases h
    exact isPlace_start 0 text
  · split at h
    · cases h
    · cases h
      refine ⟨text.takeWhile isPinChar, text.dropWhile isPinChar, ?_, (Nat.zero_add _).symm⟩
      exact List.takeWhile_append_dropWhile.symm

/-- A text that is not cut into parts is refused at a place. -/
theorem isPlace_of_readParts {text : List Char} {f : Fault} (h : readParts text = .error f) :
    IsPlace 0 text f.offset := by
  unfold readParts at h
  split at h
  · next body =>
    split at h
    · cases h
      exact isPlace_end _
    · next modeText rest hbody =>
      obtain ⟨rfl, -⟩ := splitAtFirst_eq_some_iff.mp hbody
      obtain hmode | ⟨m, -, hafter⟩ := bind_eq_error_iff.mp h
      · -- The mode starts after the mark.
        obtain ⟨g, hg, rfl⟩ := mapError_eq_error_iff.mp hmode
        unfold Mode.read at hg
        split at hg
        · cases hg
        · cases hg
          exact IsPlace.cons (isPlace_start 1 _)
      · split at hafter
        · cases hafter
          exact isPlace_end _
        · next pinText value hrest =>
          obtain ⟨rfl, -⟩ := splitAtFirst_eq_some_iff.mp hrest
          obtain hpin | ⟨name, -, hparts⟩ := bind_eq_error_iff.mp hafter
          · -- The pin starts after the mode and the colon.
            obtain ⟨g, hg, rfl⟩ := mapError_eq_error_iff.mp hpin
            have hplace := (isPlace_of_readPin hg).append_right ('=' :: value)
            have hbytes : byteCount ('#' :: (modeText ++ [':'])) = 2 + byteCount modeText := by
              simp only [byteCount, byteCount_append]
              change 1 + (byteCount modeText + (1 + 0)) = 2 + byteCount modeText
              omega
            rw [Fault.shift, ← hbytes]
            have hmoved := (isPlace_append_iff ('#' :: (modeText ++ [':']))).mpr hplace
            simpa using hmoved
          · cases hparts
  · cases h
    exact isPlace_start 0 text

/-- Behind the marks, the mode and the pin of an attribute the places are those of the value. -/
theorem isPlace_value_iff (m : Mode) (pin : List Char) {value : List Char} {n : Nat} :
    IsPlace 0 (attributeChars m pin value) (byteCount (charsBeforeValue m pin) + n) ↔
      IsPlace 0 value n := by
  rw [← charsBeforeValue_append]
  exact isPlace_append_iff _

/-- An attribute is refused within its text, and at a place unless its value is a literal whose
limit on the digits is reported and lies within a character. -/
theorem isPlace_of_read_iff {text : String} {w : Width} {f : Fault}
    (h : read text.toList w = .error f) :
    f.offset ≤ byteCount text.toList ∧
      (IsPlace 0 text.toList f.offset ↔
        ¬∃ m pin value, IsAttribute text m pin value ∧ Radix.LimitWithinChar value.toList) := by
  -- Where the text is an attribute, its fault is that of its value.
  have hvalue {m : Mode} {pin value : List Char} (htext : text.toList = attributeChars m pin value)
      (hne : pin ≠ []) (hpin : pin.all isPinChar = true) :
      f.offset ≤ byteCount text.toList ∧
        (IsPlace 0 text.toList f.offset ↔ ¬Radix.LimitWithinChar value) := by
    rw [htext, read_attributeChars m value w hne hpin, map_eq_error_iff] at h
    obtain ⟨g, hg, rfl⟩ := mapError_eq_error_iff.mp h
    obtain ⟨hle, hiff⟩ := isPlace_of_readValue_iff hg
    have hend := ((isPlace_value_iff m pin).mpr (isPlace_end value)).le
    rw [htext, Fault.shift]
    refine ⟨?_, (isPlace_value_iff m pin).trans hiff⟩
    dsimp only
    omega
  -- A text that is no attribute is refused at a place.
  have hcases : IsPlace 0 text.toList f.offset ∨ ∃ m pin value,
      text.toList = attributeChars m pin value ∧ pin ≠ [] ∧ pin.all isPinChar = true := by
    obtain hparts | ⟨parts, hparts, -⟩ := bind_eq_error_iff.mp h
    · exact .inl (isPlace_of_readParts hparts)
    · exact .inr (exists_attributeChars_of_readParts hparts)
  refine ⟨?_, ?_, fun hnone => ?_⟩
  · obtain hplace | ⟨m, pin, value, htext, hne, hpin⟩ := hcases
    · exact hplace.le
    · exact (hvalue htext hne hpin).1
  · rintro hplace ⟨m, pin, value, hattribute, hlimit⟩
    obtain ⟨htext, hne, hpin⟩ := isAttribute_iff.mp hattribute
    exact (hvalue htext hne hpin).2.mp hplace hlimit
  · obtain hplace | ⟨m, pin, value, htext, hne, hpin⟩ := hcases
    · exact hplace
    · refine (hvalue htext hne hpin).2.mpr fun hlimit => hnone ?_
      refine ⟨m, String.ofList pin, String.ofList value, isAttribute_iff.mpr ?_, ?_⟩
      · rw [String.toList_ofList, String.toList_ofList]
        exact ⟨htext, hne, hpin⟩
      · rwa [String.toList_ofList]

end Cell

namespace ParseError

/-- Whatever is refused with a parse error, the error has the whole text and an offset within it. An
equation is refused with an error that points into the text: its offset is where a character starts
or the end, and its fragment is the rest of the text from there on. So is a literal, and an
attribute, except that the limit on the digits of a literal, or of the literal that is the value of
the attribute, lies within a character: then the error points nowhere. An error that points into a
text does so within it, and has no fragment exactly if it points at the end. -/
theorem pointsInto_of_refused (text : String) :
    (∀ e, Equation.ofText text = .error (.parse e) → e.PointsInto text) ∧
      (∀ (w : Width) e, TruthTable.ofLiteralAt text w.inputs = .error (.parse e) →
        e.input = text ∧ e.offset ≤ text.utf8ByteSize ∧
          (e.PointsInto text ↔ ¬Radix.LimitWithinChar text.toList)) ∧
      (∀ (w : Width) e, Cell.ofAttributeAt text w.inputs = .error (.parse e) →
        e.input = text ∧ e.offset ≤ text.utf8ByteSize ∧
          (e.PointsInto text ↔ ¬∃ m pin value,
            Cell.IsAttribute text m pin value ∧ Radix.LimitWithinChar value.toList)) ∧
      ∀ e : ParseError, e.PointsInto text → e.offset ≤ text.utf8ByteSize ∧
        (e.fragment = "" ↔ e.offset = text.utf8ByteSize) := by
  refine ⟨fun e h => ?_, fun w e h => ?_, fun w e h => ?_,
    fun e h => ⟨h.offset_le, h.fragment_eq_empty_iff⟩⟩
  · obtain ⟨f, hf, rfl⟩ := exists_fault_of_within h
    have hplace := Equation.isPlace_of_read hf
    exact (pointsInto_ofFault_iff hplace.le).mpr hplace
  · rw [TruthTable.ofLiteralAt_inputs, TruthTable.ofLiteral] at h
    obtain ⟨f, hf, rfl⟩ := exists_fault_of_within h
    obtain ⟨hle, hiff⟩ := Radix.isPlace_of_readLiteral_iff (map_eq_error_iff.mp hf)
    exact ⟨rfl, offset_ofFault_le _ _ _, (pointsInto_ofFault_iff hle).trans hiff⟩
  · rw [Cell.ofAttributeAt_inputs, Cell.ofAttribute_eq] at h
    obtain ⟨f, hf, rfl⟩ := exists_fault_of_within h
    obtain ⟨hle, hiff⟩ := Cell.isPlace_of_read_iff hf
    exact ⟨rfl, offset_ofFault_le _ _ _, (pointsInto_ofFault_iff hle).trans hiff⟩

/-- In `A1*é`, in `0x1é` and in the value of `#ROM:O6=0x1é` the character that has no place there is
pointed at. -/
theorem pointsInto_of_refused_wide :
    (∃ e, Equation.ofText "A1*é" = .error (.parse e) ∧ e.PointsInto "A1*é" ∧ e.fragment = "é") ∧
      (∃ e, TruthTable.ofLiteralAt "0x1é" 4 = .error (.parse e) ∧ e.PointsInto "0x1é" ∧
        e.fragment = "é") ∧
      ∃ e, Cell.ofAttributeAt "#ROM:O6=0x1é" 4 = .error (.parse e) ∧
        e.PointsInto "#ROM:O6=0x1é" ∧ e.fragment = "é" := by
  -- Two digits are below any limit.
  have hfew : ¬Radix.LimitWithinChar "0x1é".toList := fun h =>
    absurd ((Radix.limitWithinChar_iff .hex ['1', 'é']).mp h).1 (by decide)
  have hparts : Cell.IsAttribute "#ROM:O6=0x1é" .rom "O6" "0x1é" := ⟨rfl, by decide, by simp⟩
  refine ⟨⟨_, rfl, (pointsInto_of_refused _).1 _ rfl, by decide⟩, ⟨_, rfl, ?_, by decide⟩,
    ⟨_, rfl, ?_, by decide⟩⟩
  · exact ((pointsInto_of_refused _).2.1 ⟨4, by decide, by decide⟩ _ rfl).2.2.mpr hfew
  · refine ((pointsInto_of_refused _).2.2.1 ⟨4, by decide, by decide⟩ _ rfl).2.2.mpr ?_
    rintro ⟨m, pin, value, h, hlimit⟩
    obtain ⟨-, -, rfl⟩ := h.unique hparts
    exact hfew hlimit

/-- Among 15 digits and a character of two bytes the sixteenth byte is within this character: the
error for the literal has no fragment, and it does not point at the end. -/
theorem not_pointsInto_limit :
    ∃ e, TruthTable.ofLiteralAt "0x111111111111111é" 4 = .error (.parse e) ∧
      e.offset = 18 ∧ e.fragment = "" ∧ "0x111111111111111é".utf8ByteSize = 19 ∧
      ¬e.PointsInto "0x111111111111111é" := by
  refine ⟨_, rfl, rfl, by decide, by decide, fun h => ?_⟩
  -- Without a fragment it would be at the end.
  exact absurd (h.fragment_eq_empty_iff.mp (by decide)) (by decide)

end ParseError

end LutLogic
