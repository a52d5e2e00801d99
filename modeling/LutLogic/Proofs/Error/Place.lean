import LutLogic.Error
import Mathlib.Data.List.Basic

/-!
# Places in a text

A parse error names a place by its byte offset. `Text.IsPlace` says which offsets are places: those
at which a character starts, and the end of the text. The characters of a text are read from the
first one on, so places are said for a text whose first character is at any offset, and a place of
what is left is a place of the whole text (`IsPlace.append`). In the other direction, a place behind
the first part of a text is a place of the second part (`isPlace_append_iff`).

`ParseError.PointsInto` is what an error owes its reader: it has the text, and its fragment is the
rest of the text from its offset on. For the error that is made of a fault this comes down to the
offset of the fault being a place (`pointsInto_ofFault_iff`).
-/

namespace LutLogic

namespace Text

/-- Offset `p` is a place in a text whose first character is at byte `pos`: a character starts
there, or the text ends. -/
def IsPlace (pos : Nat) (cs : List Char) (p : Nat) : Prop :=
  ∃ before after, cs = before ++ after ∧ p = pos + byteCount before

/-- A text starts at a place. -/
theorem isPlace_start (pos : Nat) (cs : List Char) : IsPlace pos cs pos :=
  ⟨[], cs, rfl, rfl⟩

/-- A text ends at a place. -/
theorem isPlace_end (cs : List Char) : IsPlace 0 cs (byteCount cs) :=
  ⟨cs, [], (List.append_nil cs).symm, (Nat.zero_add _).symm⟩

/-- A place in the rest of a text is a place in the text. -/
theorem IsPlace.append {pos p : Nat} {cs : List Char} (xs : List Char)
    (h : IsPlace (pos + byteCount xs) cs p) : IsPlace pos (xs ++ cs) p := by
  obtain ⟨before, after, rfl, rfl⟩ := h
  refine ⟨xs ++ before, after, (List.append_assoc xs before after).symm, ?_⟩
  rw [byteCount_append, Nat.add_assoc]

/-- A place in the text after a first character is a place in the text. -/
theorem IsPlace.cons {pos p : Nat} {c : Char} {cs : List Char}
    (h : IsPlace (pos + c.utf8Size) cs p) : IsPlace pos (c :: cs) p :=
  IsPlace.append [c] h

/-- A place is not beyond the end. -/
theorem IsPlace.le {p : Nat} {cs : List Char} (h : IsPlace 0 cs p) : p ≤ byteCount cs := by
  obtain ⟨before, after, rfl, rfl⟩ := h
  rw [byteCount_append]
  omega

/-- A place in the first part of a text is a place in the text. -/
theorem IsPlace.append_right {pos p : Nat} {cs : List Char} (h : IsPlace pos cs p)
    (ys : List Char) : IsPlace pos (cs ++ ys) p := by
  obtain ⟨before, after, rfl, rfl⟩ := h
  exact ⟨before, after ++ ys, List.append_assoc before after ys, rfl⟩

/-- Behind the first part of a text the places are those of the second part. -/
theorem isPlace_append_iff {n : Nat} (xs : List Char) {cs : List Char} :
    IsPlace 0 (xs ++ cs) (byteCount xs + n) ↔ IsPlace 0 cs n := by
  constructor
  · rintro ⟨before, after, hsplit, hbytes⟩
    obtain ⟨mid, rfl, rfl⟩ | ⟨mid, rfl, rfl⟩ := List.append_eq_append_iff.mp hsplit
    · rw [byteCount_append] at hbytes
      exact ⟨mid, after, rfl, by omega⟩
    · -- The place is not behind the first part, so it is at its end.
      rw [byteCount_append] at hbytes
      have hn : n = 0 := by omega
      rw [hn]
      exact isPlace_start 0 cs
  · rintro ⟨before, after, rfl, rfl⟩
    refine IsPlace.append xs ⟨before, after, rfl, ?_⟩
    omega

/-- At a place the rest of a text is what follows it. -/
theorem afterBytes_of_isPlace {n : Nat} {cs : List Char} (h : IsPlace 0 cs n) :
    ∃ before, cs = before ++ afterBytes n cs ∧ byteCount before = n := by
  obtain ⟨before, after, rfl, rfl⟩ := h
  rw [Nat.zero_add, afterBytes_byteCount_append]
  exact ⟨before, rfl, rfl⟩

end Text

namespace ParseError

open Text

/-- An error points into a text: the text is its input, and its fragment is the rest of the text
from its offset on. -/
structure PointsInto (e : ParseError) (text : String) : Prop where
  /-- The input is the whole text. -/
  input_eq : e.input = text
  /-- The offset is where the fragment starts. -/
  exists_before : ∃ before, text = before ++ e.fragment ∧ before.utf8ByteSize = e.offset

/-- An error that points into a text does so within it. -/
theorem PointsInto.offset_le {e : ParseError} {text : String} (h : e.PointsInto text) :
    e.offset ≤ text.utf8ByteSize := by
  obtain ⟨before, htext, hbytes⟩ := h.exists_before
  rw [htext, String.utf8ByteSize_append]
  omega

/-- An error that points into a text has no fragment exactly if it points at the end. -/
theorem PointsInto.fragment_eq_empty_iff {e : ParseError} {text : String}
    (h : e.PointsInto text) : e.fragment = "" ↔ e.offset = text.utf8ByteSize := by
  obtain ⟨before, htext, hbytes⟩ := h.exists_before
  have hsize : text.utf8ByteSize = e.offset + e.fragment.utf8ByteSize := by
    conv_lhs => rw [htext]
    rw [String.utf8ByteSize_append, hbytes]
  rw [← String.utf8ByteSize_eq_zero_iff]
  omega

/-- The error that is made of a fault has the whole text and an offset within it. -/
theorem offset_ofFault_le (target : ParseTarget) (text : String) (f : Fault) :
    (ofFault target text f).offset ≤ text.utf8ByteSize := by
  rw [← byteCount_toList]
  exact Nat.min_le_right _ _

/-- The offset of a fault within a text is not moved to the end. -/
theorem offset_ofFault_of_le {target : ParseTarget} {text : String} {f : Fault}
    (hle : f.offset ≤ byteCount text.toList) : (ofFault target text f).offset = f.offset :=
  Nat.min_eq_left hle

/-- The error that is made of a fault within a text points into the text exactly if the fault is at
a place. -/
theorem pointsInto_ofFault_iff {target : ParseTarget} {text : String} {f : Fault}
    (hle : f.offset ≤ byteCount text.toList) :
    (ofFault target text f).PointsInto text ↔ IsPlace 0 text.toList f.offset := by
  have hoffset : (ofFault target text f).offset = f.offset := offset_ofFault_of_le hle
  constructor
  · intro h
    obtain ⟨before, htext, hbytes⟩ := h.exists_before
    refine ⟨before.toList, (ofFault target text f).fragment.toList, ?_, ?_⟩
    · rw [← String.toList_append, ← htext]
    · rw [byteCount_toList, hbytes, hoffset, Nat.zero_add]
  · intro h
    obtain ⟨before, htext, hbytes⟩ := afterBytes_of_isPlace h
    refine ⟨rfl, String.ofList before, ?_, ?_⟩
    · rw [fragment, hoffset, ← String.ofList_append, ← String.toList_inj, String.toList_ofList]
      exact htext
    · rw [← byteCount_toList, String.toList_ofList, hbytes, hoffset]

/-- What is refused as a text is refused for a fault in it. -/
theorem exists_fault_of_within {α : Type} {target : ParseTarget} {text : String}
    {r : Except Fault α} {e : ParseError} (h : Fault.within target text r = .error (.parse e)) :
    ∃ f, r = .error f ∧ e = ofFault target text f := by
  obtain ⟨f, hr, hf⟩ := Fault.within_eq_error_iff.mp h
  cases hf
  exact ⟨f, hr, rfl⟩

end ParseError

end LutLogic
