import LutLogic.Proofs.Equation.Reprint
import Mathlib.Data.List.Chain

/-!
# Which equations are read from their own text

The text of an equation names a pin by its whole number, while reading takes a single digit after
`A`, and only `1` to `6`. The name of any other pin is therefore refused where it starts, or it is
cut into a pin and the digits that are left over: `A10` into `A1` and the constant `0`. No single
symbol is at fault then, and it may happen anywhere in a tree.

What refuses such a text is the grammar. `Symbol.Joins` is the rule that no operand stands right
beside another one, and every chain keeps it (`Chain.isChain_joins`). A text that is cut into
symbols that keep the rule names no pin out of range (`pin_bounds_of_scanFrom`). So an equation that
is read from the text of an equation is that equation, and the two limits, on pins and on nesting,
are exact.
-/

namespace LutLogic

namespace Symbol

/-- Whether an operand can start with a symbol. -/
def startsOperand : Symbol → Bool
  | zero | one | pin _ | tilde | leftParen => true
  | op _ | rightParen | finish => false

/-- Whether an operand can end with a symbol. -/
def endsOperand : Symbol → Bool
  | zero | one | pin _ | rightParen => true
  | tilde | op _ | leftParen | finish => false

/-- Two symbols may stand side by side: they are not the end of an operand and the start of the
next one. -/
def Joins (s t : Symbol) : Prop := s.endsOperand = true → t.startsOperand = false

/-- A digit that stands for a symbol stands for a constant, which is an operand. -/
theorem startsOperand_of_isDigit {c : Char} {s : Symbol} (hc : c.isDigit = true)
    (hs : ofChar? c = some s) : s.startsOperand = true := by
  unfold ofChar? at hs
  split at hs
  case h_5 => exact absurd hc (by decide)
  case h_6 =>
    -- No operator is written with a digit.
    obtain ⟨op, hop, -⟩ := Option.map_eq_some_iff.mp hs
    rw [BinaryOp.ofSymbol?_eq_some_iff.mp hop] at hc
    exact absurd hc (by cases op <;> decide)
  all_goals
    cases hs
    rfl

/-- A digit after `A` stands for the pin of its value. -/
theorem ofDigitChars_of_pinOfDigit? {c : Char} {index : Nat} (h : pinOfDigit? c = some index) :
    Nat.ofDigitChars 10 [c] 0 = index := by
  unfold pinOfDigit? at h
  split at h
  · cases h
    rw [Nat.ofDigitChars_cons, Nat.ofDigitChars_nil, Nat.mul_zero, Nat.zero_add]
    rfl
  · cases h

end Symbol

/-! ## No operand stands beside another one -/

namespace Grammar

/-- Any symbols may follow one that ends no operand. -/
theorem isChain_joins_cons {s : Symbol} {ss : List Symbol} (hs : s.endsOperand = false)
    (hss : ss.IsChain Symbol.Joins) : (s :: ss).IsChain Symbol.Joins := by
  refine List.isChain_cons.mpr ⟨fun t _ hend => ?_, hss⟩
  rw [hs] at hend
  cases hend

/-- Any symbols may stand before one that starts no operand. -/
theorem isChain_joins_append {s : Symbol} {ls rs : List Symbol} (hs : s.startsOperand = false)
    (hls : ls.IsChain Symbol.Joins) (hrs : (s :: rs).IsChain Symbol.Joins) :
    (ls ++ s :: rs).IsChain Symbol.Joins := by
  refine List.isChain_append.mpr ⟨hls, hrs, fun x _ t ht _ => ?_⟩
  rw [List.head?_cons, Option.mem_some_iff] at ht
  rw [← ht]
  exact hs

mutual

/-- In an operand no two operands stand side by side. -/
theorem Operand.isChain_joins {ss : List Symbol} {e : Equation} {n : Nat} :
    Operand ss e n → ss.IsChain Symbol.Joins
  | .zero => List.isChain_singleton _
  | .one => List.isChain_singleton _
  | .pin _ => List.isChain_singleton _
  | .inverted _ => List.isChain_pair.mpr nofun
  | .group inner =>
    isChain_joins_cons rfl (isChain_joins_append rfl inner.isChain_joins (List.isChain_singleton _))

/-- In a chain no two operands stand side by side: there is an operator between them. -/
theorem Chain.isChain_joins {ss : List Symbol} {e : Equation} {n : Nat} :
    Chain ss e n → ss.IsChain Symbol.Joins
  | .single operand => operand.isChain_joins
  | .operation _ first rest =>
    isChain_joins_append rfl first.isChain_joins (isChain_joins_cons rfl rest.isChain_joins)

end

end Grammar

/-! ## Where a pin out of range stands, two operands stand side by side -/

namespace Tokens

/-- A digit is no blank. -/
theorem isBlank_of_isDigit {c : Char} (hc : c.isDigit = true) : isBlank c = false := by
  cases hblank : isBlank c with
  | false => rfl
  | true =>
    simp only [isBlank, Bool.or_eq_true, decide_eq_true_eq] at hblank
    rcases hblank with (((rfl | rfl) | rfl) | rfl) | rfl <;> exact absurd hc (by decide)

/-- A digit is cut off as an operand, or it is refused. -/
theorem exists_operand_of_scanFrom {pos : Nat} {c : Char} {cs : List Char} {ts : List Token}
    (hc : c.isDigit = true) (h : scanFrom pos (c :: cs) = .ok ts) :
    ∃ s us, ts = ⟨s, pos⟩ :: us ∧ s.startsOperand = true := by
  have hA : c ≠ 'A' := by
    rintro rfl
    exact absurd hc (by decide)
  have hblank := isBlank_of_isDigit hc
  rw [scanFrom, hblank, if_neg Bool.false_ne_true] at h
  · split at h
    · cases h
    · next s hs =>
      obtain ⟨us, -, rfl⟩ := map_eq_ok_iff.mp h
      exact ⟨s, us, rfl, Symbol.startsOperand_of_isDigit hc hs⟩
  · exact hA

/-- The name of a pin out of range is refused, or it is cut into two operands side by side. -/
theorem not_joins_of_scanFrom_pinName {pos index : Nat} {cs : List Char} {ts : List Token}
    (hindex : ¬(1 ≤ index ∧ index ≤ maxInputs)) (h : scanFrom pos (pinName index ++ cs) = .ok ts) :
    ∃ t u us, ts = t :: u :: us ∧ ¬Symbol.Joins t.symbol u.symbol := by
  obtain ⟨d, ds, hdigits⟩ : ∃ d ds, pinDigits index = d :: ds :=
    List.exists_cons_of_ne_nil Nat.toDigits_ne_nil
  have hvalue : Nat.ofDigitChars 10 (d :: ds) 0 = index := by
    rw [← hdigits]
    exact Nat.ofDigitChars_toDigits (by decide) (by decide)
  rw [pinName, hdigits, List.cons_append, List.cons_append, scanFrom] at h
  split at h
  · cases h
  · next i hi =>
    obtain ⟨us, hus, rfl⟩ := map_eq_ok_iff.mp h
    cases ds with
    | nil =>
      -- A single digit that is accepted is the whole number.
      rw [Symbol.ofDigitChars_of_pinOfDigit? hi] at hvalue
      rw [← hvalue] at hindex
      exact absurd (Symbol.pinOfDigit?_bounds hi) hindex
    | cons c ds =>
      have hc : c.isDigit = true := by
        refine Nat.isDigit_of_mem_toDigits (b := 10) (n := index) (by decide) (by decide) ?_
        rw [show Nat.toDigits 10 index = d :: c :: ds from hdigits]
        simp
      obtain ⟨s, vs, rfl, hs⟩ := exists_operand_of_scanFrom hc hus
      refine ⟨⟨.pin i, pos⟩, ⟨s, pos + 2⟩, vs, rfl, fun hjoins => ?_⟩
      rw [hjoins rfl] at hs
      cases hs

/-- If the text of symbols is cut into symbols of which none ends an operand where the next one
starts another, then it names no pin out of range. -/
theorem pin_bounds_of_scanFrom {ss : List Symbol} {pos : Nat} {ts : List Token}
    (h : scanFrom pos (ss.flatMap Symbol.chars) = .ok ts)
    (hts : (ts.map Token.symbol).IsChain Symbol.Joins) {index : Nat} (hmem : .pin index ∈ ss) :
    1 ≤ index ∧ index ≤ maxInputs := by
  induction ss generalizing pos ts with
  | nil => cases hmem
  | cons s ss ih =>
    rw [List.flatMap_cons] at h
    by_cases hs : s.Written
    · rw [scanFrom_chars hs] at h
      obtain ⟨us, hus, rfl⟩ := map_eq_ok_iff.mp h
      rcases List.mem_cons.mp hmem with rfl | hmem
      · exact hs
      · exact ih hus hts.tail hmem
    · cases s with
      | pin i =>
        obtain ⟨t, u, us, rfl, hnot⟩ := not_joins_of_scanFrom_pinName hs h
        exact absurd (List.isChain_cons_cons.mp hts).1 hnot
      | finish =>
        -- The end of a text is not written, so there is nothing to cut off.
        rcases List.mem_cons.mp hmem with hfinish | hmem
        · cases hfinish
        · exact ih h hts hmem
      | _ => exact absurd trivial hs

end Tokens

namespace Equation

/-- The symbols of an equation name the pins that it mentions. -/
theorem pin_mem_symbols_iff {e : Equation} {index : Nat} :
    .pin index ∈ e.symbols ↔ index ∈ e.usedInputs := by
  induction e with
  | constant output => cases output <;> simp [symbols]
  | input i inv => cases inv <;> simp [symbols]
  | binary op left right ihl ihr => simp [symbols, ihl, ihr]

/-- An equation from whose characters any equation is read is over `A1` to `A6`. -/
theorem within_of_read_chars {d e : Equation} (h : read e.chars = .ok d) : e.Within maxInputs := by
  obtain ⟨ts, hscan, hread⟩ := read_eq_ok_iff.mp h
  obtain ⟨us, hus, rfl⟩ := map_eq_ok_iff.mp hscan
  obtain ⟨n, hchain, -⟩ := readTokens_eq_ok_iff.mp hread
  rw [chars_eq_flatMap] at hus
  intro i hi
  exact Tokens.pin_bounds_of_scanFrom hus hchain.isChain_joins (pin_mem_symbols_iff.mpr hi)

/-- The characters of an equation are read as this equation, if its pins are in range and it costs
no more than the nesting limit, and as no other. -/
theorem read_chars_eq_ok_iff {d e : Equation} :
    read e.chars = .ok d ↔ (e.Within maxInputs ∧ e.cost ≤ maxNesting) ∧ d = e := by
  constructor
  · intro h
    have hwithin : e.Within maxInputs := within_of_read_chars h
    obtain ⟨hcost, heq⟩ := hwithin.read_chars_eq_ok_iff.mp h
    exact ⟨⟨hwithin, hcost⟩, heq⟩
  · rintro ⟨⟨hwithin, hcost⟩, heq⟩
    exact hwithin.read_chars_eq_ok_iff.mpr ⟨hcost, heq⟩

/-- The text of any equation is read as this equation if its pins are in range and it costs no more
than the nesting limit. Otherwise it is refused as a text: it is never read as another equation. -/
theorem ofText_text_eq_ok_iff (e : Equation) :
    (∀ d, ofText e.text = .ok d ↔
        ((∀ i ∈ e.usedInputs, 1 ≤ i ∧ i ≤ 6) ∧ e.cost ≤ 256) ∧ d = e) ∧
      ((∃ f, ofText e.text = .error (.parse (.ofFault .equation e.text f))) ↔
        ¬((∀ i ∈ e.usedInputs, 1 ≤ i ∧ i ≤ 6) ∧ e.cost ≤ 256)) := by
  have htext : ofText e.text = Fault.within .equation e.text (read e.chars) := by
    rw [ofText, text, String.toList_ofList]
  rw [htext]
  refine ⟨fun d => Fault.within_eq_ok_iff.trans read_chars_eq_ok_iff, ?_⟩
  rw [Fault.exists_within_eq_error_iff]
  constructor
  · intro hnone hlimits
    exact hnone e (read_chars_eq_ok_iff.mpr ⟨hlimits, rfl⟩)
  · intro hlimits d hd
    exact hlimits (read_chars_eq_ok_iff.mp hd).1

/-- The name of pin 10 is cut into pin 1 and the constant `0`, which nothing joins. -/
example : ofText (plain 10).text =
    .error (.parse ⟨.equation, "A10", 2, .expected .finish .zero⟩) := by
  rfl

end Equation

end LutLogic
