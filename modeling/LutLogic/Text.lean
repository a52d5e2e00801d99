/-!
# Positions in text

Places in a text are counted in bytes of its UTF-8 form. `byteCount` is the length of a text in
that measure, `afterBytes` the rest of a text from a place on, and `splitAtFirst` cuts a text at
the first occurrence of a character.
-/

namespace LutLogic.Text

/-- The number of bytes of a text in UTF-8. -/
def byteCount : List Char → Nat
  | [] => 0
  | c :: cs => c.utf8Size + byteCount cs

/-- The text that follows the first `n` bytes, and no text if byte `n` is not where a character
starts. -/
def afterBytes : Nat → List Char → List Char
  | 0, cs => cs
  | _ + 1, [] => []
  | n + 1, c :: cs => if c.utf8Size ≤ n + 1 then afterBytes (n + 1 - c.utf8Size) cs else []

/-- The parts of a text before and after the first occurrence of `mark`. -/
def splitAtFirst (mark : Char) : List Char → Option (List Char × List Char)
  | [] => none
  | c :: cs =>
    if c = mark then some ([], cs) else (splitAtFirst mark cs).map fun p => (c :: p.1, p.2)

@[simp] theorem byteCount_append (xs ys : List Char) :
    byteCount (xs ++ ys) = byteCount xs + byteCount ys := by
  induction xs with
  | nil => simp [byteCount]
  | cons c xs ih => simp [byteCount, ih, Nat.add_assoc]

/-- The bytes that are counted are those of the string. -/
theorem byteCount_toList (s : String) : byteCount s.toList = s.utf8ByteSize := by
  have chars : ∀ cs : List Char, byteCount cs = (String.ofList cs).utf8ByteSize := by
    intro cs
    induction cs with
    | nil => simp [byteCount]
    | cons c cs ih =>
      have split : String.ofList (c :: cs) = String.ofList [c] ++ String.ofList cs := by
        rw [← String.ofList_append, List.singleton_append]
      rw [byteCount, ih, split, String.utf8ByteSize_append, ← String.singleton_eq_ofList,
        String.utf8ByteSize_singleton]
  rw [chars, String.ofList_toList]

/-- Behind a first part a text goes on as its second part does. -/
theorem afterBytes_byteCount_add (xs ys : List Char) (n : Nat) :
    afterBytes (byteCount xs + n) (xs ++ ys) = afterBytes n ys := by
  induction xs with
  | nil => simp [byteCount]
  | cons c xs ih =>
    obtain ⟨k, hk⟩ : ∃ k, byteCount (c :: xs) + n = k + 1 :=
      ⟨byteCount (c :: xs) + n - 1, by have := c.utf8Size_pos; simp [byteCount]; omega⟩
    have hbytes : c.utf8Size + (byteCount xs + n) = k + 1 := by
      rw [← hk, byteCount, Nat.add_assoc]
    have hle : c.utf8Size ≤ k + 1 := by omega
    have hsub : k + 1 - c.utf8Size = byteCount xs + n := by omega
    rw [hk, List.cons_append, afterBytes, if_pos hle, hsub, ih]

/-- At the end of a first part, what follows is the second part. -/
theorem afterBytes_byteCount_append (xs ys : List Char) :
    afterBytes (byteCount xs) (xs ++ ys) = ys := by
  have hstart : afterBytes 0 ys = ys := by cases ys <;> rfl
  exact (afterBytes_byteCount_add xs ys 0).trans hstart

/-- A text is cut at `mark` exactly when `mark` stands between the parts and not in the first. -/
theorem splitAtFirst_eq_some_iff {mark : Char} {cs xs ys : List Char} :
    splitAtFirst mark cs = some (xs, ys) ↔ cs = xs ++ mark :: ys ∧ mark ∉ xs := by
  induction cs generalizing xs with
  | nil => simp [splitAtFirst]
  | cons c cs ih =>
    by_cases hc : c = mark
    · subst hc
      cases xs with
      | nil => simp [splitAtFirst]
      | cons x xs =>
        simp only [splitAtFirst, if_pos, Option.some.injEq, Prod.mk.injEq, List.cons_append,
          List.cons.injEq, List.mem_cons, not_or]
        constructor
        · rintro ⟨h, -⟩; cases h
        · rintro ⟨⟨h, -⟩, h', -⟩; exact absurd h h'
    · cases xs with
      | nil => simp [splitAtFirst, hc]
      | cons x xs =>
        simp only [splitAtFirst, if_neg hc, Option.map_eq_some_iff, Prod.mk.injEq, Prod.exists,
          List.cons_append, List.cons.injEq, List.mem_cons, not_or]
        constructor
        · rintro ⟨a, b, hab, ⟨rfl, rfl⟩, rfl⟩
          obtain ⟨rfl, hm⟩ := ih.1 hab
          exact ⟨⟨rfl, rfl⟩, fun h => hc h.symm, hm⟩
        · rintro ⟨⟨rfl, rfl⟩, -, hm⟩
          exact ⟨xs, ys, ih.2 ⟨rfl, hm⟩, ⟨rfl, rfl⟩, rfl⟩

end LutLogic.Text
