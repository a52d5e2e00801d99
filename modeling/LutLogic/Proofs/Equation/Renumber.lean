import LutLogic.Proofs.Equation.Pins
import Mathlib.Data.Set.Function

/-!
# Renumbering is a simultaneous substitution

A `PinMap` lists some pins with their new numbers and leaves the others where they are. It may swap
pins, move several to one, and use numbers that no row has a value for. Renumbering an equation by
it replaces every pin once, and never what a pin was replaced by.

`PinMap.andThen` is the list that moves a pin as two lists do one after the other, and renumbering
twice is renumbering by it. `PinMap.undo` moves the images of some pins back, which a list can do as
long as no two of these pins have the same image. This is also needed: a renumbering keeps an
equation only if it keeps every pin of it (`Equation.renumber_eq_self_iff`).
-/

namespace LutLogic

/-- Among pairs made from a list of numbers, the key of a number that no other one in the list has
leads to what was made from the number, if it is in the list. -/
theorem lookup_map_key {κ β : Type} [BEq κ] [LawfulBEq κ] (key : Nat → κ) (value : Nat → β)
    {i : Nat} {pins : List Nat} (hkey : ∀ p ∈ pins, key p = key i → p = i) :
    (pins.map fun p => (key p, value p)).lookup (key i) =
      if i ∈ pins then some (value i) else none := by
  induction pins with
  | nil => rfl
  | cons p ps ih =>
    obtain ⟨hp, hps⟩ := List.forall_mem_cons.mp hkey
    rw [List.map_cons, List.lookup_cons]
    by_cases hip : i = p
    · subst hip
      rw [beq_self_eq_true, if_pos List.mem_cons_self]
    · have hne : (key i == key p) = false :=
        beq_eq_false_iff_ne.mpr fun heq => hip (hp heq.symm).symm
      have hmem : i ∈ p :: ps ↔ i ∈ ps := by
        rw [List.mem_cons, or_iff_right hip]
      rw [hne]
      simp only [hmem]
      exact ih hps

namespace PinMap

/-- A renumbering that lists some pins with their images under a function renumbers these pins by
it. -/
theorem apply_map (f : Nat → Nat) (pins : List Nat) (i : Nat) :
    PinMap.apply (pins.map fun p => (p, f p)) i = if i ∈ pins then f i else i := by
  have hlookup : (pins.map fun p => (p, f p)).lookup i = if i ∈ pins then some (f i) else none :=
    lookup_map_key id f fun p _ h => h
  rw [apply, hlookup]
  split <;> rfl

/-- The renumbering that moves a pin as `m` does, and then as `n` does. -/
def andThen (m n : PinMap) : PinMap := (m.map fun (old, new) => (old, n.apply new)) ++ n

/-- A pin is moved by one renumbering and then by the other. -/
theorem apply_andThen (m n : PinMap) (i : Nat) : (m.andThen n).apply i = n.apply (m.apply i) := by
  induction m with
  | nil => rfl
  | cons p m ih =>
    obtain ⟨old, new⟩ := p
    have hstep : andThen ((old, new) :: m) n = (old, n.apply new) :: andThen m n := rfl
    rw [hstep]
    unfold apply at ih ⊢
    rw [List.lookup_cons, List.lookup_cons]
    cases i == old with
    | true => rfl
    | false => exact ih

/-- The renumbering that moves the images of some pins back to them. -/
def undo (m : PinMap) (pins : List Nat) : PinMap := pins.map fun i => (m.apply i, i)

/-- The image of a pin is moved back to it, if no other pin has this image. -/
theorem apply_undo {m : PinMap} {pins : List Nat} (h : Set.InjOn m.apply {i | i ∈ pins}) {i : Nat}
    (hi : i ∈ pins) : (m.undo pins).apply (m.apply i) = i := by
  have hlookup : (m.undo pins).lookup (m.apply i) = some i := by
    rw [undo, lookup_map_key m.apply (fun p => p) fun p hp heq => h hp hi heq, if_pos hi]
  rw [apply, hlookup, Option.getD_some]

end PinMap

namespace Equation

/-- Renumbering twice moves every pin twice. -/
theorem renumber_renumber (e : Equation) (f g : Nat → Nat) :
    (e.renumber f).renumber g = e.renumber (g ∘ f) := by
  induction e with
  | constant output => rfl
  | input index inverted => rfl
  | binary op left right ihl ihr =>
    simp only [renumber]
    rw [ihl, ihr]

/-- A renumbering can be undone exactly if it moves no two pins of the equation to one. -/
theorem exists_renumber_eq_self_iff {e : Equation} {m : PinMap} :
    (∃ u : PinMap, (e.renumber m.apply).renumber u.apply = e) ↔
      Set.InjOn m.apply {i | i ∈ e.usedInputs} := by
  constructor
  · rintro ⟨u, hu⟩ i hi j hj hij
    rw [renumber_renumber, renumber_eq_self_iff] at hu
    calc i = u.apply (m.apply i) := (hu i hi).symm
      _ = u.apply (m.apply j) := by rw [hij]
      _ = j := hu j hj
  · intro h
    refine ⟨m.undo e.usedInputs, ?_⟩
    rw [renumber_renumber, renumber_eq_self_iff]
    exact fun i hi => PinMap.apply_undo h hi

/-- Renumbering moves all pins of an equation at once, and leaves those that are not listed where
they are. The renumbered equation has in a row the output that the equation has in every row in
which each of its pins has the value of the pin that it is moved to. It mentions the pins that the
pins of the equation are moved to and no others. Renumbering it again is renumbering once by a list
that moves each pin twice. And it can be renumbered back exactly if no two pins of the equation are
moved to one. -/
theorem renumber_simultaneous (e : Equation) (m : PinMap) :
    (∀ x y, (∀ i ∈ e.usedInputs, pinValue y i = pinValue x (m.apply i)) →
        (e.renumber m.apply).evaluate x = e.evaluate y) ∧
      {j | j ∈ (e.renumber m.apply).usedInputs} = m.apply '' {i | i ∈ e.usedInputs} ∧
      (∀ n : PinMap, (e.renumber m.apply).renumber n.apply = e.renumber (m.andThen n).apply ∧
        ∀ i, (m.andThen n).apply i = n.apply (m.apply i)) ∧
      ((∃ u : PinMap, (e.renumber m.apply).renumber u.apply = e) ↔
        Set.InjOn m.apply {i | i ∈ e.usedInputs}) := by
  refine ⟨fun x y h => ?_, ?_, fun n => ⟨?_, m.apply_andThen n⟩, exists_renumber_eq_self_iff⟩
  · exact evaluate_renumber fun i hi => (h i hi).symm
  · ext j
    exact mem_usedInputs_renumber
  · have happly : (m.andThen n).apply = n.apply ∘ m.apply := funext (m.apply_andThen n)
    rw [renumber_renumber, happly]

/-- In `(A1*~A2)+(A0@A40)`, `A1` and `A2` are swapped and `A40` is moved to `A3`, and this can be
undone; moving `A1` to `A2` alone cannot. -/
theorem renumber_simultaneous_swap :
    ∃ e : Equation, ∃ m : PinMap,
      e = .or (.and (.plain 1) (.inverted 2)) (.xor (.plain 0) (.plain 40)) ∧
      m = [(1, 2), (2, 1), (40, 3)] ∧
      (∀ i ∈ e.usedInputs, pinValue 1 i = pinValue 2 (m.apply i)) ∧
      (e.renumber m.apply).evaluate 2 = e.evaluate 1 ∧ e.evaluate 1 = true ∧
      (e.renumber m.apply).renumber m.apply = e.renumber (m.andThen m).apply ∧
      (∃ u : PinMap, (e.renumber m.apply).renumber u.apply = e) ∧
      ¬∃ u : PinMap, (e.renumber (PinMap.apply [(1, 2)])).renumber u.apply = e := by
  have hrow : ∀ i ∈ [0, 1, 2, 40],
      pinValue 1 i = pinValue 2 (PinMap.apply [(1, 2), (2, 1), (40, 3)] i) := by decide
  obtain ⟨heval, -, hcompose, hundo⟩ :=
    renumber_simultaneous (.or (.and (.plain 1) (.inverted 2)) (.xor (.plain 0) (.plain 40)))
      [(1, 2), (2, 1), (40, 3)]
  obtain ⟨-, -, -, hmerge⟩ :=
    renumber_simultaneous (.or (.and (.plain 1) (.inverted 2)) (.xor (.plain 0) (.plain 40)))
      [(1, 2)]
  refine ⟨_, _, rfl, rfl, hrow, heval 2 1 hrow, rfl, (hcompose _).1, hundo.mpr ?_, ?_⟩
  · have hinj : ∀ i ∈ [0, 1, 2, 40], ∀ j ∈ [0, 1, 2, 40],
        PinMap.apply [(1, 2), (2, 1), (40, 3)] i = PinMap.apply [(1, 2), (2, 1), (40, 3)] j →
        i = j := by decide
    exact fun i hi j hj => hinj i hi j hj
  · intro hback
    have heq : (1 : Nat) = 2 := hmerge.mp hback (show 1 ∈ [0, 1, 2, 40] by decide)
      (show 2 ∈ [0, 1, 2, 40] by decide) rfl
    cases heq

end Equation

end LutLogic
