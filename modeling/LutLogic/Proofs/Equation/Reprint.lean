import LutLogic.Equation.Printer
import LutLogic.Proofs.Equation.Grammar
import LutLogic.Proofs.Equation.Pins

/-!
# Reading what was written

The text of an equation puts every operation in parentheses, and reading counts both the parentheses
and the operator. `cost` is what this comes to on the deepest path: one level on the left of an
operator and two on its right. The symbols of the text are an operand of the equation that nests
`cost` levels (`operand_symbols`), so the text is read back exactly if the cost is within the
nesting limit, provided that its pins can be written.

A chain without parentheses nests only half as much as its text: an equation that was read may cost
more than the limit, and then its own text is refused.
-/

namespace LutLogic

namespace Symbol

/-- A symbol that text can be cut into: not the end of the text, and no pin but `A1` to `A6`. -/
def Written : Symbol → Prop
  | pin index => 1 ≤ index ∧ index ≤ maxInputs
  | finish => False
  | _ => True

/-- A character that stands for a symbol stands for one that can be written. -/
theorem written_of_ofChar? {c : Char} {s : Symbol} (h : ofChar? c = some s) : s.Written := by
  unfold ofChar? at h
  split at h
  case h_6 =>
    obtain ⟨op, -, rfl⟩ := Option.map_eq_some_iff.mp h
    exact trivial
  all_goals
    cases h
    exact trivial

/-- A digit that stands for a pin stands for one of `A1` to `A6`. -/
theorem pinOfDigit?_bounds {c : Char} {index : Nat} (h : pinOfDigit? c = some index) :
    1 ≤ index ∧ index ≤ maxInputs := by
  unfold pinOfDigit? at h
  split at h
  · next hc =>
    cases h
    have h1 : 49 ≤ c.toNat := hc.1
    have h6 : c.toNat ≤ 54 := hc.2
    simp only [maxInputs]
    omega
  · cases h

end Symbol

namespace Tokens

/-- The characters of a symbol are cut off as that symbol. -/
theorem scanFrom_chars {s : Symbol} (hs : s.Written) (pos : Nat) (cs : List Char) :
    scanFrom pos (s.chars ++ cs) =
      (scanFrom (pos + s.chars.length) cs).map (⟨s, pos⟩ :: ·) := by
  cases s with
  | zero => rfl
  | one => rfl
  | tilde => rfl
  | leftParen => rfl
  | rightParen => rfl
  | op o => cases o <;> rfl
  | finish => exact hs.elim
  | pin index =>
    obtain ⟨h1, h6⟩ := hs
    have hindex : index = 1 ∨ index = 2 ∨ index = 3 ∨ index = 4 ∨ index = 5 ∨ index = 6 := by
      simp only [maxInputs] at h6
      omega
    rcases hindex with rfl | rfl | rfl | rfl | rfl | rfl <;> rfl

/-- The characters of symbols, one after the other, are cut into those symbols. -/
theorem exists_scanFrom {ss : List Symbol} (hss : ∀ s ∈ ss, s.Written) (pos : Nat) :
    ∃ ts, scanFrom pos (ss.flatMap Symbol.chars) = .ok ts ∧ ts.map Token.symbol = ss := by
  induction ss generalizing pos with
  | nil => exact ⟨[], rfl, rfl⟩
  | cons s ss ih =>
    obtain ⟨hs, hss⟩ := List.forall_mem_cons.mp hss
    obtain ⟨ts, hts, hsymbols⟩ := ih hss (pos + s.chars.length)
    refine ⟨⟨s, pos⟩ :: ts, ?_, by rw [List.map_cons, hsymbols]⟩
    rw [List.flatMap_cons, scanFrom_chars hs, hts]
    rfl

/-- Text is cut only into symbols that can be written. -/
theorem written_of_scanFrom {pos : Nat} {cs : List Char} {ts : List Token}
    (h : scanFrom pos cs = .ok ts) : ∀ t ∈ ts, t.symbol.Written := by
  fun_induction scanFrom pos cs generalizing ts with
  | case1 pos => cases h; simp
  | case2 pos => cases h
  | case3 pos d rest hd => cases h
  | case4 pos d rest index hd ih =>
    obtain ⟨us, hus, rfl⟩ := map_eq_ok_iff.mp h
    exact List.forall_mem_cons.mpr ⟨Symbol.pinOfDigit?_bounds hd, ih hus⟩
  | case5 pos c cs hA hblank ih => exact ih h
  | case6 pos c cs hA hblank hc => cases h
  | case7 pos c cs hA hblank s hc ih =>
    obtain ⟨us, hus, rfl⟩ := map_eq_ok_iff.mp h
    exact List.forall_mem_cons.mpr ⟨Symbol.written_of_ofChar? hc, ih hus⟩

end Tokens

namespace Grammar

open Equation

mutual

/-- The pins of an operand are those of its symbols. -/
theorem Operand.within_iff {ss : List Symbol} {e : Equation} {n : Nat} :
    Operand ss e n → (e.Within maxInputs ↔ ∀ s ∈ ss, s.Written)
  | .zero => by simp [within_constant, Symbol.Written]
  | .one => by simp [within_constant, Symbol.Written]
  | .pin index => by
    rw [plain, within_input_iff, List.forall_mem_singleton]
    exact Iff.rfl
  | .inverted index => by
    rw [Equation.inverted, within_input_iff, List.forall_mem_cons, List.forall_mem_singleton]
    exact ⟨fun h => ⟨trivial, h⟩, fun h => h.2⟩
  | .group inner => by
    rw [inner.within_iff, List.forall_mem_cons, List.forall_mem_append, List.forall_mem_singleton]
    exact ⟨fun h => ⟨trivial, h, trivial⟩, fun h => h.2.1⟩

/-- The pins of a chain are those of its symbols. -/
theorem Chain.within_iff {ss : List Symbol} {e : Equation} {n : Nat} :
    Chain ss e n → (e.Within maxInputs ↔ ∀ s ∈ ss, s.Written)
  | .single operand => operand.within_iff
  | .operation op first rest => by
    rw [within_binary_iff, first.within_iff, rest.within_iff, List.forall_mem_append,
      List.forall_mem_cons]
    exact ⟨fun h => ⟨h.1, trivial, h.2⟩, fun h => ⟨h.1, h.2.2⟩⟩

end

end Grammar

namespace Equation

open Grammar

/-- The levels that the text of an equation nests: an operation is a group, and its right operand
is the rest of a chain. -/
def cost : Equation → Nat
  | constant _ => 0
  | input _ _ => 0
  | binary _ left right => max (1 + left.cost) (2 + right.cost)

/-- The symbols of an equation, each operation in parentheses. -/
def symbols : Equation → List Symbol
  | constant false => [.zero]
  | constant true => [.one]
  | input index false => [.pin index]
  | input index true => [.tilde, .pin index]
  | binary op left right =>
    .leftParen :: ((left.symbols ++ .op op :: right.symbols) ++ [.rightParen])

/-- The text of an equation is the text of its symbols. -/
theorem chars_eq_flatMap (e : Equation) : e.chars = e.symbols.flatMap Symbol.chars := by
  induction e with
  | constant output => cases output <;> rfl
  | input index inverted => cases inverted <;> simp [chars, symbols, Symbol.chars]
  | binary op left right ihl ihr => simp [chars, symbols, Symbol.chars, ihl, ihr]

/-- The symbols of an equation are an operand of it that nests as much as it costs. -/
theorem operand_symbols (e : Equation) : Operand e.symbols e e.cost := by
  induction e with
  | constant output =>
    cases output with
    | false => exact .zero
    | true => exact .one
  | input index inv =>
    cases inv with
    | false => exact .pin index
    | true => exact .inverted index
  | binary op left right ihl ihr =>
    have hcost : (binary op left right).cost = max left.cost (right.cost + 1) + 1 := by
      simp only [cost]
      omega
    rw [hcost]
    exact .group (.operation op ihl (.single ihr))

/-- The equation that characters stand for is over `A1` to `A6`. -/
theorem within_of_read {text : List Char} {e : Equation} (h : read text = .ok e) :
    e.Within maxInputs := by
  obtain ⟨ts, hs, hr⟩ := read_eq_ok_iff.mp h
  obtain ⟨us, hus, rfl⟩ := map_eq_ok_iff.mp hs
  obtain ⟨n, hc, -⟩ := readTokens_eq_ok_iff.mp hr
  rw [hc.within_iff]
  intro s hmem
  obtain ⟨t, ht, rfl⟩ := List.mem_map.mp hmem
  exact Tokens.written_of_scanFrom hus t ht

/-- The equation that a text stands for is over `A1` to `A6`. -/
theorem within_of_ofText {text : String} {e : Equation} (h : ofText text = .ok e) :
    e.Within maxInputs :=
  within_of_read (Fault.within_eq_ok_iff.mp h)

/-- The text of a chain of symbols that can be written is read as the chain if its levels are no
more than the nesting limit, and otherwise it is refused for its nesting. -/
theorem read_flatMap_chars {ss : List Symbol} {e : Equation} {n : Nat} (hc : Chain ss e n)
    (hss : ∀ s ∈ ss, s.Written) :
    (n ≤ maxNesting → read (ss.flatMap Symbol.chars) = .ok e) ∧
      (maxNesting < n →
        ∃ offset, read (ss.flatMap Symbol.chars) = .error ⟨offset, .nestedTooDeeply⟩) := by
  obtain ⟨ts, hts, hsymbols⟩ := Tokens.exists_scanFrom hss 0
  have hscan : Tokens.scan (ss.flatMap Symbol.chars) =
      .ok ⟨ts, Text.byteCount (ss.flatMap Symbol.chars)⟩ := by
    rw [Tokens.scan, hts]
    rfl
  obtain ⟨hok, herror⟩ :=
    Chain.reads (Text.byteCount (ss.flatMap Symbol.chars)) maxNesting [] nofun hsymbols hc
  rw [List.append_nil] at hok herror
  constructor
  · intro hn
    rw [read, hscan]
    simp only [readTokens, hok hn]
  · intro hn
    obtain ⟨offset, hr⟩ := herror hn
    refine ⟨offset, ?_⟩
    rw [read, hscan]
    simp only [readTokens, hr]

/-- The characters of an equation over `A1` to `A6` stand for this equation or, if it costs more
than the nesting limit, for none. -/
theorem Within.read_chars_eq_ok_iff {d e : Equation} (h : e.Within maxInputs) :
    read e.chars = .ok d ↔ e.cost ≤ maxNesting ∧ d = e := by
  have hoperand := e.operand_symbols
  obtain ⟨hok, herror⟩ := read_flatMap_chars (.single hoperand) (hoperand.within_iff.mp h)
  rw [chars_eq_flatMap]
  constructor
  · intro hd
    rcases Nat.lt_or_ge maxNesting e.cost with hcost | hcost
    · obtain ⟨offset, hr⟩ := herror hcost
      rw [hr] at hd
      cases hd
    · rw [hok hcost] at hd
      exact ⟨hcost, (Except.ok.inj hd).symm⟩
  · rintro ⟨hcost, rfl⟩
    exact hok hcost

/-- The text of an equation over `A1` to `A6` is read back if the equation costs no more than the
nesting limit, and otherwise it is refused for its nesting. -/
theorem Within.ofText_text {e : Equation} (h : e.Within maxInputs) :
    (e.cost ≤ maxNesting → ofText e.text = .ok e) ∧
      (maxNesting < e.cost → ∃ offset, ofText e.text =
        .error (.parse (.ofFault .equation e.text ⟨offset, .nestedTooDeeply⟩))) := by
  have hoperand := e.operand_symbols
  have hchars : e.text.toList = e.symbols.flatMap Symbol.chars := by
    rw [text, String.toList_ofList, chars_eq_flatMap]
  obtain ⟨hok, herror⟩ := read_flatMap_chars (.single hoperand) (hoperand.within_iff.mp h)
  constructor
  · intro hcost
    rw [ofText, hchars]
    exact Fault.within_eq_ok_iff.mpr (hok hcost)
  · intro hcost
    obtain ⟨offset, hr⟩ := herror hcost
    refine ⟨offset, ?_⟩
    rw [ofText, hchars, hr]
    rfl

/-! ## A chain that costs more than it nests -/

/-- The symbols of `n` conjunctions of zeros in one chain. -/
def zeroSymbols : Nat → List Symbol
  | 0 => [.zero]
  | n + 1 => .zero :: .op .and :: zeroSymbols n

/-- The equation of `n` conjunctions of zeros in one chain. -/
def zeroChain : Nat → Equation
  | 0 => constant false
  | n + 1 => and (constant false) (zeroChain n)

/-- The text `0*0*…*0` of `n` conjunctions in one chain. -/
def zeroText (n : Nat) : String := String.ofList ((zeroSymbols n).flatMap Symbol.chars)

/-- The chain nests one level for each operation. -/
theorem chain_zeroChain (n : Nat) : Chain (zeroSymbols n) (zeroChain n) n := by
  induction n with
  | zero => exact .single .zero
  | succ n ih =>
    have h := Chain.operation .and .zero ih
    rwa [Nat.zero_max] at h

/-- The text of the chain with all its parentheses nests two. -/
theorem cost_zeroChain (n : Nat) : (zeroChain n).cost = 2 * n := by
  induction n with
  | zero => rfl
  | succ n ih =>
    rw [zeroChain, and, cost, ih, cost]
    omega

/-- The chain is read as long as its operations are no more than the nesting limit. -/
theorem ofText_zeroText {n : Nat} (hn : n ≤ maxNesting) :
    ofText (zeroText n) = .ok (zeroChain n) := by
  have hwithin : (zeroChain n).Within maxInputs := by
    induction n with
    | zero => exact within_constant _ _
    | succ n ih => exact within_binary_iff.mpr ⟨within_constant _ _, ih (by omega)⟩
  have hc := chain_zeroChain n
  rw [ofText, zeroText, String.toList_ofList]
  exact Fault.within_eq_ok_iff.mpr ((read_flatMap_chars hc (hc.within_iff.mp hwithin)).1 hn)

/-! ## Writing what was read -/

/-- Writing an equation that was read and reading it again gives the equation back exactly if it
costs at most 256 levels; if it costs more, its text is refused for its nesting. -/
theorem ofText_text_of_ofText {text : String} {e : Equation} (h : ofText text = .ok e) :
    (ofText e.text = .ok e ↔ e.cost ≤ 256) ∧
      (256 < e.cost → ∃ offset, ofText e.text =
        .error (.parse (.ofFault .equation e.text ⟨offset, .nestedTooDeeply⟩))) := by
  obtain ⟨hok, herror⟩ := (within_of_ofText h).ofText_text
  refine ⟨⟨fun hback => ?_, hok⟩, herror⟩
  rcases Nat.lt_or_ge 256 e.cost with hcost | hcost
  · obtain ⟨offset, hr⟩ := herror hcost
    rw [hback] at hr
    cases hr
  · exact hcost

/-- A chain of 128 operations costs as much as the limit, and one of 129 operations costs more. -/
theorem ofText_text_zeroChain :
    ofText (zeroText 128) = .ok (zeroChain 128) ∧
      ofText (zeroChain 128).text = .ok (zeroChain 128) ∧
      ofText (zeroText 129) = .ok (zeroChain 129) ∧ 256 < (zeroChain 129).cost ∧
      ∃ offset, ofText (zeroChain 129).text =
        .error (.parse (.ofFault .equation (zeroChain 129).text ⟨offset, .nestedTooDeeply⟩)) := by
  have hread : ofText (zeroText 128) = .ok (zeroChain 128) := ofText_zeroText (by decide)
  have hlonger : ofText (zeroText 129) = .ok (zeroChain 129) := ofText_zeroText (by decide)
  have hcost : (zeroChain 128).cost ≤ 256 := Nat.le_of_eq (cost_zeroChain 128)
  have hcost129 : (zeroChain 129).cost = 258 := cost_zeroChain 129
  have hmore : 256 < (zeroChain 129).cost := by omega
  exact ⟨hread, (ofText_text_of_ofText hread).1.mpr hcost, hlonger, hmore,
    (ofText_text_of_ofText hlonger).2 hmore⟩

/-- A chain of 129 operations is read, but its text, which nests 258 levels, is not. -/
theorem zeroChain_not_reread :
    ofText (zeroText 129) = .ok (zeroChain 129) ∧
      ofText (zeroChain 129).text ≠ .ok (zeroChain 129) := by
  have hread : ofText (zeroText 129) = .ok (zeroChain 129) := ofText_zeroText (by decide)
  have hcost : (zeroChain 129).cost = 258 := cost_zeroChain 129
  have hmore : maxNesting < (zeroChain 129).cost := by
    simp only [maxNesting, hcost]
    omega
  obtain ⟨offset, hr⟩ := (within_of_ofText hread).ofText_text.2 hmore
  refine ⟨hread, fun hback => ?_⟩
  rw [hback] at hr
  cases hr

end Equation

end LutLogic
