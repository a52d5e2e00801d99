import LutLogic.Proofs.Equation.Readable

/-!
# The text of an equation shows its tree

Equations with the same text are equal, whatever pins they mention and however deep they are.
Reading cannot show this: it refuses a text that names a pin out of range or nests too deeply. The
grammar knows neither limit, and in it the symbols of a text have one equation (`Chain.unique`), so
what is left to show is that the text has one list of symbols.

Every symbol but a pin is one character, and that character stands for no other symbol. Where the
name of a pin ends can only be seen from what follows, for the text of `A1` starts that of `A10`.
But no two operands stand side by side, so no digit follows a pin
(`Symbol.isDigit_head_flatMap_chars`), and its digits are as many as there are
(`takeWhile_pinDigits_append`).
-/

namespace LutLogic

/-- Different pins have different digits. -/
theorem pinDigits_injective : Function.Injective pinDigits := by
  intro i j h
  calc i = Nat.ofDigitChars 10 (pinDigits i) 0 := Nat.ofDigitChars_ten_toDigits.symm
    _ = Nat.ofDigitChars 10 (pinDigits j) 0 := by rw [h]
    _ = j := Nat.ofDigitChars_ten_toDigits

/-- The digits of a pin are the longest ones that a text starts with, if what follows them starts
with none. -/
theorem takeWhile_pinDigits_append (index : Nat) {cs : List Char}
    (hcs : ∀ c ∈ cs.head?, c.isDigit = false) :
    (pinDigits index ++ cs).takeWhile Char.isDigit = pinDigits index := by
  have hdigits : ∀ c ∈ pinDigits index, c.isDigit = true := fun c hc =>
    Nat.isDigit_of_mem_toDigits (by decide) (by decide) hc
  have hrest : cs.takeWhile Char.isDigit = [] := by
    cases cs with
    | nil => rfl
    | cons c cs => rw [List.takeWhile_cons, hcs c rfl, if_neg Bool.false_ne_true]
  rw [List.takeWhile_append_of_pos hdigits, hrest, List.append_nil]

namespace Symbol

/-- A symbol is the end of the text, a pin, or a character that stands for this symbol. -/
theorem chars_cases (s : Symbol) :
    s = finish ∨ (∃ index, s = pin index) ∨ ∃ c, s.chars = [c] ∧ ofChar? c = some s := by
  cases s with
  | zero => exact .inr (.inr ⟨'0', rfl, rfl⟩)
  | one => exact .inr (.inr ⟨'1', rfl, rfl⟩)
  | pin index => exact .inr (.inl ⟨index, rfl⟩)
  | tilde => exact .inr (.inr ⟨'~', rfl, rfl⟩)
  | op o => exact .inr (.inr ⟨o.symbol, rfl, by cases o <;> rfl⟩)
  | leftParen => exact .inr (.inr ⟨'(', rfl, rfl⟩)
  | rightParen => exact .inr (.inr ⟨')', rfl, rfl⟩)
  | finish => exact .inl rfl

/-- Every symbol but the end of the text has a character. -/
theorem chars_ne_nil {s : Symbol} (hs : s ≠ finish) : s.chars ≠ [] := by
  obtain rfl | ⟨index, rfl⟩ | ⟨c, hc, -⟩ := s.chars_cases
  · exact absurd rfl hs
  · exact List.cons_ne_nil _ _
  · rw [hc]
    exact List.cons_ne_nil _ _

/-- No digit stands for a symbol that starts no operand. -/
theorem isDigit_head_chars {s : Symbol} (hs : s.startsOperand = false) :
    ∀ c ∈ s.chars.head?, c.isDigit = false := by
  obtain rfl | ⟨index, rfl⟩ | ⟨d, hd, hof⟩ := s.chars_cases
  · nofun
  · cases hs
  · rw [hd]
    rintro c ⟨⟩
    refine Bool.eq_false_iff.mpr fun hdigit => ?_
    rw [startsOperand_of_isDigit hdigit hof] at hs
    cases hs

/-- Where no operand stands beside another one, the text after the end of an operand starts with no
digit. -/
theorem isDigit_head_flatMap_chars {s : Symbol} {ss : List Symbol} (hs : s.endsOperand = true)
    (hjoins : (s :: ss).IsChain Joins) (hss : finish ∉ ss) :
    ∀ c ∈ (ss.flatMap chars).head?, c.isDigit = false := by
  cases ss with
  | nil => nofun
  | cons t ts =>
    have hstart : t.startsOperand = false := (List.isChain_cons_cons.mp hjoins).1 hs
    have ht : t.chars ≠ [] := chars_ne_nil fun heq => hss (heq ▸ List.mem_cons_self)
    rw [List.flatMap_cons, List.head?_append_of_ne_nil _ ht]
    exact isDigit_head_chars hstart

/-- A text starts with one symbol only, if digits follow no pin. -/
theorem chars_append_inj {s t : Symbol} {cs ds : List Char} (hs : s ≠ finish) (ht : t ≠ finish)
    (hcs : s.endsOperand = true → ∀ c ∈ cs.head?, c.isDigit = false)
    (hds : t.endsOperand = true → ∀ c ∈ ds.head?, c.isDigit = false)
    (h : s.chars ++ cs = t.chars ++ ds) : s = t ∧ cs = ds := by
  obtain rfl | ⟨i, rfl⟩ | ⟨c, hc, hsof⟩ := s.chars_cases
  · exact absurd rfl hs
  · obtain rfl | ⟨j, rfl⟩ | ⟨d, hd, htof⟩ := t.chars_cases
    · exact absurd rfl ht
    · have hname : pinDigits i ++ cs = pinDigits j ++ ds := (List.cons.inj h).2
      have hdigits : pinDigits i = pinDigits j := by
        rw [← takeWhile_pinDigits_append i (hcs rfl), hname,
          takeWhile_pinDigits_append j (hds rfl)]
      rw [hdigits] at hname
      exact ⟨congrArg pin (pinDigits_injective hdigits), List.append_cancel_left hname⟩
    · rw [hd] at h
      rw [← (List.cons.inj h).1] at htof
      cases htof
  · obtain rfl | ⟨j, rfl⟩ | ⟨d, hd, htof⟩ := t.chars_cases
    · exact absurd rfl ht
    · rw [hc] at h
      rw [(List.cons.inj h).1] at hsof
      cases hsof
    · rw [hc, hd] at h
      obtain ⟨rfl, hrest⟩ := List.cons.inj h
      exact ⟨Option.some.inj (hsof.symm.trans htof), hrest⟩

/-- Symbols of which none ends an operand where the next one starts another are determined by their
text. -/
theorem flatMap_chars_inj {ss ts : List Symbol} (hss : ss.IsChain Joins) (hts : ts.IsChain Joins)
    (hsf : finish ∉ ss) (htf : finish ∉ ts) (h : ss.flatMap chars = ts.flatMap chars) :
    ss = ts := by
  induction ss generalizing ts with
  | nil =>
    cases ts with
    | nil => rfl
    | cons t ts =>
      have ht : t.chars ≠ [] := chars_ne_nil fun heq => htf (heq ▸ List.mem_cons_self)
      exact absurd (List.append_eq_nil_iff.mp h.symm).1 ht
  | cons s ss ih =>
    obtain ⟨hs, hss'⟩ := not_or.mp (mt List.mem_cons.mpr hsf)
    cases ts with
    | nil => exact absurd (List.append_eq_nil_iff.mp h).1 (chars_ne_nil (Ne.symm hs))
    | cons t ts =>
      obtain ⟨ht, hts'⟩ := not_or.mp (mt List.mem_cons.mpr htf)
      obtain ⟨rfl, hrest⟩ := chars_append_inj (Ne.symm hs) (Ne.symm ht)
        (fun hend => isDigit_head_flatMap_chars hend hss hss')
        (fun hend => isDigit_head_flatMap_chars hend hts hts') h
      exact congrArg (s :: ·) (ih hss.tail hts.tail hss' hts' hrest)

end Symbol

namespace Equation

/-- The end of a text is no symbol of it. -/
theorem finish_notMem_symbols (e : Equation) : .finish ∉ e.symbols := by
  induction e with
  | constant output => cases output <;> simp [symbols]
  | input index inverted => cases inverted <;> simp [symbols]
  | binary op left right ihl ihr => simp [symbols, ihl, ihr]

/-- Equations are determined by their texts: two equations with the same text are equal, whatever
pins they mention and however deep they are, also where the text is refused. -/
theorem text_inj (d e : Equation) : d.text = e.text ↔ d = e := by
  refine ⟨fun h => ?_, congrArg text⟩
  have hchars : d.symbols.flatMap Symbol.chars = e.symbols.flatMap Symbol.chars := by
    rw [← chars_eq_flatMap, ← chars_eq_flatMap]
    exact String.ofList_injective h
  have hsymbols : d.symbols = e.symbols :=
    Symbol.flatMap_chars_inj d.operand_symbols.isChain_joins e.operand_symbols.isChain_joins
      d.finish_notMem_symbols e.finish_notMem_symbols hchars
  have hchain : Grammar.Chain d.symbols e e.cost := hsymbols ▸ .single e.operand_symbols
  exact (Grammar.Chain.unique (.single d.operand_symbols) hchain).1

/-- The text of one equation may start that of another. -/
example : (plain 1).chars <+: (plain 10).chars := by decide

end Equation

end LutLogic
