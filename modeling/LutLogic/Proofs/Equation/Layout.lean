import LutLogic.Proofs.Equation.Faults
import LutLogic.Proofs.Equation.Reprint
import Mathlib.Order.Bounds.Defs

/-!
# How equation texts are laid out

A `Layout` is a text in its parts: symbols, each with the blanks before it, and the blanks at the
end. `Tokens.scanFrom_layout` is what cutting does with a layout and with whatever follows it: each
symbol is cut off at the bytes that stand before it. Although nothing has to separate the symbols, a
text has one layout at most (`Layout.ext_chars`), for the tokens give the number of blanks before
each of them.

That cutting accepts nothing else does not have to be read off its code. Any text is a layout and a
rest where neither a blank nor a symbol starts (`exists_layout`), by induction on its length alone.
Without a rest the tokens are those of the layout, and otherwise the rest is refused where it starts
(`Tokens.scanFrom_of_isStuck`). So the byte at which a text is refused is the only one up to which
it is a layout and where it goes on as none.
-/

namespace LutLogic

open Text

/-- The blanks of ASCII: space, tab, line feed, form feed and carriage return. -/
def blankChars : List Char := [' ', '\t', '\n', '\x0c', '\r']

/-- The symbols that a text consists of, each with its characters. -/
def spellings : List (List Char × Symbol) := [
  (['0'], .zero), (['1'], .one), (['~'], .tilde),
  (['*'], .op .and), (['+'], .op .or), (['@'], .op .xor),
  (['('], .leftParen), ([')'], .rightParen),
  (['A', '1'], .pin 1), (['A', '2'], .pin 2), (['A', '3'], .pin 3),
  (['A', '4'], .pin 4), (['A', '5'], .pin 5), (['A', '6'], .pin 6)]

/-- A symbol in a text with the blanks before it. -/
structure Lexeme where
  /-- The blanks before the symbol. -/
  blanks : List Char
  /-- The characters of the symbol. -/
  spelling : List Char
  /-- The symbol. -/
  symbol : Symbol
  /-- There are only blanks before the symbol. -/
  blank : ∀ c ∈ blanks, c ∈ blankChars
  /-- The symbol has these characters. -/
  spelled : (spelling, symbol) ∈ spellings

/-- The characters of a lexeme. -/
def Lexeme.chars (x : Lexeme) : List Char := x.blanks ++ x.spelling

/-- The parts of an equation text. -/
structure Layout where
  /-- The symbols in order, with the blanks before each. -/
  lexemes : List Lexeme
  /-- The blanks after the last symbol. -/
  tail : List Char
  /-- There are only blanks after the last symbol. -/
  blank : ∀ c ∈ tail, c ∈ blankChars

namespace Layout

/-- The characters of a layout. -/
def chars (l : Layout) : List Char := l.lexemes.flatMap Lexeme.chars ++ l.tail

/-- The characters of the first lexeme come first. -/
theorem chars_cons (x : Lexeme) (xs : List Lexeme) (tail : List Char)
    (blank : ∀ c ∈ tail, c ∈ blankChars) :
    chars ⟨x :: xs, tail, blank⟩ = x.chars ++ chars ⟨xs, tail, blank⟩ := by
  unfold chars
  rw [List.flatMap_cons, List.append_assoc]

/-- The text of a layout. -/
def text (l : Layout) : String := String.ofList l.chars

/-- The tokens of lexemes of which the first one starts at byte `pos`: each symbol at the byte after
its blanks. -/
def tokensFrom (pos : Nat) : List Lexeme → List Token
  | [] => []
  | x :: xs => ⟨x.symbol, pos + byteCount x.blanks⟩ :: tokensFrom (pos + byteCount x.chars) xs

/-- The tokens of a layout, the last of them its end. -/
def tokens (l : Layout) : List Token :=
  tokensFrom 0 l.lexemes ++ [⟨.finish, l.text.utf8ByteSize⟩]

/-- The same symbols with no blanks anywhere. -/
def withoutBlanks (l : Layout) : Layout where
  lexemes := l.lexemes.map fun x => { x with blanks := [], blank := by simp }
  tail := []
  blank := by simp

end Layout

/-- A text starts neither with a blank nor with a symbol, although it is not at its end. -/
structure IsStuck (cs : List Char) : Prop where
  /-- There is something left. -/
  ne_nil : cs ≠ []
  /-- It is no blank. -/
  no_blank : ∀ c ∈ blankChars, ¬[c] <+: cs
  /-- It is no symbol. -/
  no_symbol : ∀ x ∈ spellings, ¬x.1 <+: cs

/-- Byte `p` of a text is where a layout ends and the text goes on with neither a blank nor a
symbol. -/
def StuckAt (text : String) (p : Nat) : Prop :=
  ∃ (l : Layout) (rest : String),
    text = l.text ++ rest ∧ IsStuck rest.toList ∧ p = l.text.utf8ByteSize

/-! ## Blanks and spellings -/

/-- The blanks are those that cutting skips. -/
theorem isBlank_iff {c : Char} : isBlank c = true ↔ c ∈ blankChars := by
  simp [isBlank, blankChars, or_assoc]

/-- A blank is one byte. -/
theorem byteCount_blanks {ws : List Char} (h : ∀ c ∈ ws, c ∈ blankChars) :
    byteCount ws = ws.length := by
  induction ws with
  | nil => rfl
  | cons c ws ih =>
    obtain ⟨hc, hws⟩ := List.forall_mem_cons.mp h
    rw [byteCount, ih hws, Tokens.utf8Size_of_isBlank (isBlank_iff.mpr hc), List.length_cons,
      Nat.add_comm]

/-- Whether a symbol can be written is decided by its pin. -/
instance decidableWritten (s : Symbol) : Decidable s.Written :=
  match s with
  | .pin index => inferInstanceAs (Decidable (1 ≤ index ∧ index ≤ maxInputs))
  | .finish => isFalse id
  | .zero | .one | .tilde | .op _ | .leftParen | .rightParen => isTrue trivial

/-- What holds of every entry of the list of spellings holds of every spelling. -/
theorem forall_spelling {p : List Char → Symbol → Prop}
    (hall : ∀ n : Fin spellings.length, p (spellings.get n).1 (spellings.get n).2)
    {cs : List Char} {s : Symbol} (h : (cs, s) ∈ spellings) : p cs s := by
  obtain ⟨n, hn⟩ := List.get_of_mem h
  have hp := hall n
  rwa [hn] at hp

/-- The spellings are the characters of the symbols that can be written. -/
theorem mem_spellings_iff {cs : List Char} {s : Symbol} :
    (cs, s) ∈ spellings ↔ s.Written ∧ cs = s.chars := by
  constructor
  · exact forall_spelling (p := fun cs s => s.Written ∧ cs = s.chars) (by decide)
  · rintro ⟨hs, rfl⟩
    cases s with
    | op o => cases o <;> decide
    | pin index =>
      obtain ⟨h1, h6⟩ := hs
      have hindex : index = 1 ∨ index = 2 ∨ index = 3 ∨ index = 4 ∨ index = 5 ∨ index = 6 := by
        simp only [maxInputs] at h6
        omega
      rcases hindex with rfl | rfl | rfl | rfl | rfl | rfl <;> decide
    | finish => exact hs.elim
    | _ => decide

/-- The characters of a symbol are one byte each, and there is at least one of them. -/
theorem byteCount_spelling {cs : List Char} {s : Symbol} (h : (cs, s) ∈ spellings) :
    byteCount cs = cs.length ∧ 0 < cs.length :=
  forall_spelling (p := fun cs _ => byteCount cs = cs.length ∧ 0 < cs.length) (by decide) h

/-- A digit after `A` that stands for a pin spells it. -/
theorem spelled_of_pinOfDigit? {c : Char} {index : Nat} (h : pinOfDigit? c = some index) :
    (['A', c], .pin index) ∈ spellings := by
  unfold pinOfDigit? at h
  split at h
  · next hc =>
    cases h
    have h1 : 49 ≤ c.toNat := hc.1
    have h6 : c.toNat ≤ 54 := hc.2
    have hdigit : c.toNat = 49 ∨ c.toNat = 50 ∨ c.toNat = 51 ∨ c.toNat = 52 ∨ c.toNat = 53 ∨
        c.toNat = 54 := by omega
    rw [← Char.ofNat_toNat c]
    rcases hdigit with hn | hn | hn | hn | hn | hn <;> rw [hn] <;> decide
  · cases h

/-- A character that stands for a symbol spells it. -/
theorem spelled_of_ofChar? {c : Char} {s : Symbol} (h : Symbol.ofChar? c = some s) :
    ([c], s) ∈ spellings := by
  unfold Symbol.ofChar? at h
  split at h
  case h_6 =>
    obtain ⟨op, hop, rfl⟩ := Option.map_eq_some_iff.mp h
    rw [BinaryOp.ofSymbol?_eq_some_iff.mp hop]
    cases op <;> decide
  all_goals
    cases h
    decide

/-! ## Cutting a layout -/

namespace Tokens

/-- Cutting skips blanks. -/
theorem scanFrom_blanks {ws : List Char} (h : ∀ c ∈ ws, c ∈ blankChars) (pos : Nat)
    (cs : List Char) : scanFrom pos (ws ++ cs) = scanFrom (pos + byteCount ws) cs := by
  induction ws generalizing pos with
  | nil => rfl
  | cons c ws ih =>
    obtain ⟨hc, hws⟩ := List.forall_mem_cons.mp h
    have hblank : isBlank c = true := isBlank_iff.mpr hc
    have hA : c ≠ 'A' := by
      rintro rfl
      exact absurd hblank (by decide)
    have hsize : c.utf8Size = 1 := utf8Size_of_isBlank hblank
    have hpos : pos + byteCount (c :: ws) = pos + 1 + byteCount ws := by
      rw [byteCount, hsize]
      omega
    rw [List.cons_append, scanFrom, if_pos hblank, ih hws, hpos]
    exact hA

/-- Cutting takes a lexeme off a text, at the byte after its blanks. -/
theorem scanFrom_lexeme (x : Lexeme) (pos : Nat) (cs : List Char) :
    scanFrom pos (x.chars ++ cs) = (scanFrom (pos + byteCount x.chars) cs).map
      (⟨x.symbol, pos + byteCount x.blanks⟩ :: ·) := by
  obtain ⟨hwritten, hspelling⟩ := mem_spellings_iff.mp x.spelled
  have hsize := (byteCount_spelling x.spelled).1
  have hpos : pos + byteCount x.chars = pos + byteCount x.blanks + x.symbol.chars.length := by
    unfold Lexeme.chars
    rw [byteCount_append, hsize, hspelling]
    omega
  rw [hpos, ← scanFrom_chars hwritten, ← scanFrom_blanks x.blank, Lexeme.chars, hspelling,
    List.append_assoc]

/-- Cutting takes a layout off a text: the tokens are those of its lexemes, and what follows is cut
at the byte after the layout. -/
theorem scanFrom_layout (l : Layout) (pos : Nat) (cs : List Char) :
    scanFrom pos (l.chars ++ cs) =
      (scanFrom (pos + byteCount l.chars) cs).map (Layout.tokensFrom pos l.lexemes ++ ·) := by
  obtain ⟨lexemes, tail, htail⟩ := l
  induction lexemes generalizing pos with
  | nil =>
    have hchars : Layout.chars ⟨[], tail, htail⟩ = tail := rfl
    rw [hchars, scanFrom_blanks htail]
    cases scanFrom (pos + byteCount tail) cs <;> rfl
  | cons x xs ih =>
    have hpos : pos + byteCount (Layout.chars ⟨x :: xs, tail, htail⟩) =
        pos + byteCount x.chars + byteCount (Layout.chars ⟨xs, tail, htail⟩) := by
      rw [Layout.chars_cons, byteCount_append]
      omega
    rw [hpos, Layout.chars_cons, List.append_assoc, scanFrom_lexeme, ih]
    cases scanFrom (pos + byteCount x.chars + byteCount (Layout.chars ⟨xs, tail, htail⟩)) cs <;> rfl

/-- What is stuck is refused where it starts. -/
theorem scanFrom_of_isStuck {cs : List Char} (h : IsStuck cs) (pos : Nat) :
    ∃ cause, scanFrom pos cs = .error ⟨pos, cause⟩ := by
  unfold scanFrom
  split
  · exact absurd rfl h.ne_nil
  · next cs =>
    split
    · exact ⟨_, rfl⟩
    · next d rest =>
      split
      · exact ⟨_, rfl⟩
      · next index hd =>
        exact absurd ⟨rest, rfl⟩ (h.no_symbol _ (spelled_of_pinOfDigit? hd))
  · next c cs _ =>
    split
    · next hblank => exact absurd ⟨cs, rfl⟩ (h.no_blank c (isBlank_iff.mp hblank))
    · split
      · exact ⟨_, rfl⟩
      · next s hs => exact absurd ⟨cs, rfl⟩ (h.no_symbol _ (spelled_of_ofChar? hs))

end Tokens

/-! ## Every text is a layout as far as it is one -/

namespace Layout

/-- The layout that has a blank more at its start. -/
def addBlank (c : Char) (hc : c ∈ blankChars) (l : Layout) : Layout :=
  match l.lexemes with
  | [] => ⟨[], c :: l.tail, List.forall_mem_cons.mpr ⟨hc, l.blank⟩⟩
  | x :: xs =>
    ⟨{ x with blanks := c :: x.blanks, blank := List.forall_mem_cons.mpr ⟨hc, x.blank⟩ } :: xs,
      l.tail, l.blank⟩

/-- The blank is the first character. -/
theorem chars_addBlank (c : Char) (hc : c ∈ blankChars) (l : Layout) :
    (l.addBlank c hc).chars = c :: l.chars := by
  obtain ⟨lexemes, tail, htail⟩ := l
  cases lexemes <;> rfl

/-- The layout that has a symbol more at its start. -/
def addSymbol (cs : List Char) (s : Symbol) (h : (cs, s) ∈ spellings) (l : Layout) : Layout :=
  ⟨⟨[], cs, s, by simp, h⟩ :: l.lexemes, l.tail, l.blank⟩

/-- The symbol has the first characters. -/
theorem chars_addSymbol (cs : List Char) (s : Symbol) (h : (cs, s) ∈ spellings) (l : Layout) :
    (l.addSymbol cs s h).chars = cs ++ l.chars :=
  chars_cons _ l.lexemes l.tail l.blank

end Layout

/-- Every text is a layout and a rest, and the rest is empty or stuck. -/
theorem exists_layout (cs : List Char) :
    ∃ (l : Layout) (rest : List Char), cs = l.chars ++ rest ∧ (rest = [] ∨ IsStuck rest) := by
  induction hn : cs.length using Nat.strongRecOn generalizing cs with
  | ind n ih =>
    subst hn
    by_cases hblank : ∃ c ∈ blankChars, [c] <+: cs
    · obtain ⟨c, hc, ds, rfl⟩ := hblank
      obtain ⟨l, rest, rfl, hrest⟩ := ih ds.length (by simp) ds rfl
      exact ⟨l.addBlank c hc, rest, by rw [l.chars_addBlank]; rfl, hrest⟩
    · by_cases hsymbol : ∃ x ∈ spellings, x.1 <+: cs
      · obtain ⟨⟨spelling, s⟩, hs, ds, rfl⟩ := hsymbol
        have hpos := (byteCount_spelling hs).2
        obtain ⟨l, rest, rfl, hrest⟩ := ih ds.length (by simp; omega) ds rfl
        exact ⟨l.addSymbol spelling s hs, rest, by rw [l.chars_addSymbol, List.append_assoc],
          hrest⟩
      · refine ⟨⟨[], [], by simp⟩, cs, rfl, ?_⟩
        by_cases hnil : cs = []
        · exact .inl hnil
        · exact .inr ⟨hnil, fun c hc hp => hblank ⟨c, hc, hp⟩,
            fun x hx hp => hsymbol ⟨x, hx, hp⟩⟩

namespace Layout

/-! ## A text has one layout -/

/-- Lexemes that have the same tokens and, with what follows them, the same characters are the
same. -/
theorem eq_of_tokensFrom_eq {xs ys : List Lexeme} {t u : List Char} {pos : Nat}
    (htokens : tokensFrom pos xs = tokensFrom pos ys)
    (hchars : xs.flatMap Lexeme.chars ++ t = ys.flatMap Lexeme.chars ++ u) : xs = ys ∧ t = u := by
  induction xs generalizing ys pos with
  | nil =>
    cases ys with
    | nil => exact ⟨rfl, hchars⟩
    | cons y ys => cases htokens
  | cons x xs ih =>
    cases ys with
    | nil => cases htokens
    | cons y ys =>
      obtain ⟨htoken, hrest⟩ := List.cons.inj htokens
      obtain ⟨hsymbol, hoffset⟩ := Token.mk.inj htoken
      -- The offsets give the number of blanks, and so the blanks.
      have hblanks : x.blanks = y.blanks ∧
          x.spelling ++ (xs.flatMap Lexeme.chars ++ t) =
            y.spelling ++ (ys.flatMap Lexeme.chars ++ u) := by
        have hlength : x.blanks.length = y.blanks.length := by
          rw [← byteCount_blanks x.blank, ← byteCount_blanks y.blank]
          omega
        refine List.append_inj ?_ hlength
        simpa only [List.flatMap_cons, Lexeme.chars, List.append_assoc] using hchars
      have hspelling : x.spelling = y.spelling := by
        rw [(mem_spellings_iff.mp x.spelled).2, (mem_spellings_iff.mp y.spelled).2, hsymbol]
      have hxy : x = y := by
        cases x
        cases y
        cases hblanks.1
        cases hspelling
        cases hsymbol
        rfl
      subst hxy
      obtain ⟨rfl, htail⟩ := ih hrest (List.append_cancel_left hblanks.2)
      exact ⟨rfl, htail⟩

/-- The characters of a layout are cut into its tokens. -/
theorem scanFrom_chars_layout (l : Layout) (pos : Nat) :
    Tokens.scanFrom pos l.chars = .ok (tokensFrom pos l.lexemes) := by
  have h := Tokens.scanFrom_layout l pos []
  rw [List.append_nil] at h
  rw [h, Tokens.scanFrom, Except.map, List.append_nil]

/-- A text has one layout at most. -/
theorem ext_chars {l l' : Layout} (h : l.chars = l'.chars) : l = l' := by
  have htokens : tokensFrom 0 l.lexemes = tokensFrom 0 l'.lexemes := by
    have hl := l.scanFrom_chars_layout 0
    rw [h, l'.scanFrom_chars_layout] at hl
    exact (Except.ok.inj hl).symm
  obtain ⟨hlexemes, htail⟩ := eq_of_tokensFrom_eq htokens h
  cases l
  cases l'
  cases hlexemes
  cases htail
  rfl

/-! ## Texts -/

/-- The bytes of a text are those of its characters. -/
theorem utf8ByteSize_text (l : Layout) : l.text.utf8ByteSize = byteCount l.chars := by
  rw [← byteCount_toList, text, String.toList_ofList]

/-- The characters of a layout are cut into the tokens of its lexemes, up to their end. -/
theorem scan_chars (l : Layout) :
    Tokens.scan l.chars = .ok ⟨tokensFrom 0 l.lexemes, byteCount l.chars⟩ := by
  rw [Tokens.scan, l.scanFrom_chars_layout]
  rfl

/-- The text of a layout is cut into its tokens. -/
theorem ofText_text (l : Layout) : Tokens.ofText l.text = .ok l.tokens := by
  unfold tokens
  rw [Tokens.ofText_eq_ok_iff_scan, utf8ByteSize_text, text, String.toList_ofList, l.scan_chars]

/-- The symbols of the tokens are those of the lexemes. -/
theorem map_symbol_tokensFrom (pos : Nat) (xs : List Lexeme) :
    (tokensFrom pos xs).map Token.symbol = xs.map Lexeme.symbol := by
  induction xs generalizing pos with
  | nil => rfl
  | cons x xs ih => rw [tokensFrom, List.map_cons, ih, List.map_cons]

/-- Without blanks the symbols are the same. -/
theorem map_symbol_withoutBlanks (l : Layout) :
    l.withoutBlanks.tokens.map Token.symbol = l.tokens.map Token.symbol := by
  unfold tokens
  rw [List.map_append, List.map_append, map_symbol_tokensFrom, map_symbol_tokensFrom,
    withoutBlanks, List.map_map]
  rfl

end Layout

namespace Tokens

/-- A text that goes on after a layout and is stuck there is refused at the byte after the
layout. -/
theorem ofText_of_stuckAt {text : String} {p : Nat} (h : StuckAt text p) :
    ∃ cause, ofText text = .error (.parse ⟨.equation, text, p, cause⟩) := by
  obtain ⟨l, rest, htext, hstuck, rfl⟩ := h
  have hchars : text.toList = l.chars ++ rest.toList := by
    rw [htext, String.toList_append, Layout.text, String.toList_ofList]
  obtain ⟨cause, hcause⟩ := scanFrom_of_isStuck hstuck (0 + byteCount l.chars)
  have hscan : scan text.toList = .error ⟨byteCount l.chars, cause⟩ := by
    rw [scan, hchars, scanFrom_layout, hcause, Nat.zero_add]
    rfl
  -- The offset is within the text, so it is not moved to the end.
  have hoffset : min (byteCount l.chars) (byteCount text.toList) = l.text.utf8ByteSize := by
    rw [hchars, byteCount_append, l.utf8ByteSize_text]
    omega
  refine ⟨cause, ?_⟩
  rw [ofText, hscan, ← hoffset]
  rfl

/-- A text is the one of a layout, or it is stuck somewhere. -/
theorem exists_layout_or_stuckAt (text : String) :
    (∃ l : Layout, text = l.text) ∨ ∃ p, StuckAt text p := by
  obtain ⟨l, rest, hchars, hrest⟩ := exists_layout text.toList
  have htext : text = l.text ++ String.ofList rest := by
    rw [Layout.text, ← String.ofList_append, ← hchars, String.ofList_toList]
  obtain rfl | hstuck := hrest
  · exact .inl ⟨l, by simpa using htext⟩
  · exact .inr ⟨_, l, String.ofList rest, htext, by rwa [String.toList_ofList], rfl⟩

/-- What is cut is the text of a layout. -/
theorem exists_layout_of_ofText {text : String} {ts : List Token} (h : ofText text = .ok ts) :
    ∃ l : Layout, text = l.text ∧ ts = l.tokens := by
  obtain ⟨l, rfl⟩ | ⟨p, hp⟩ := exists_layout_or_stuckAt text
  · rw [l.ofText_text] at h
    exact ⟨l, rfl, (Except.ok.inj h).symm⟩
  · obtain ⟨cause, hcause⟩ := ofText_of_stuckAt hp
    rw [hcause] at h
    cases h

/-- Exactly the texts of layouts are cut: symbols, each with any blanks of ASCII before it, and any
blanks at the end. Their tokens are the symbols, each at the byte where it starts, and the end of
the text at its length in bytes. A text has one layout at most, and no blanks are needed: without
them the symbols are the same. Every other text is refused as an equation, at the first byte, which
is the only one, up to which it is a layout and where neither a blank nor a symbol starts. -/
theorem ofText_eq_ok_iff_exists_layout (text : String) :
    (∀ ts, ofText text = .ok ts ↔ ∃ l : Layout, text = l.text ∧ ts = l.tokens) ∧
      (∀ l l' : Layout, l.text = l'.text → l = l') ∧
      (∀ l : Layout, ∃ ts, ofText l.withoutBlanks.text = .ok ts ∧
        ts.map Token.symbol = l.tokens.map Token.symbol) ∧
      (∀ error, ofText text = .error error → ∃ e, error = .parse e ∧ e.target = .equation ∧
        e.input = text ∧ IsLeast {p | StuckAt text p} e.offset) ∧
      ∀ p, StuckAt text p → ∃ e, ofText text = .error (.parse e) ∧ e.offset = p := by
  refine ⟨fun ts => ⟨exists_layout_of_ofText, ?_⟩, fun l l' h => ?_, fun l => ?_,
    fun error h => ?_, fun p hp => ?_⟩
  · rintro ⟨l, rfl, rfl⟩
    exact l.ofText_text
  · exact Layout.ext_chars (String.ofList_injective h)
  · exact ⟨_, l.withoutBlanks.ofText_text, l.map_symbol_withoutBlanks⟩
  · obtain ⟨l, rfl⟩ | ⟨p, hp⟩ := exists_layout_or_stuckAt text
    · rw [l.ofText_text] at h
      cases h
    · obtain ⟨cause, hcause⟩ := ofText_of_stuckAt hp
      rw [hcause] at h
      cases h
      refine ⟨_, rfl, rfl, rfl, hp, fun q hq => ?_⟩
      -- Where else it is stuck, it is refused as well.
      obtain ⟨cause', hcause'⟩ := ofText_of_stuckAt hq
      rw [hcause] at hcause'
      cases hcause'
      exact Nat.le_refl p
  · obtain ⟨cause, hcause⟩ := ofText_of_stuckAt hp
    exact ⟨_, hcause, rfl⟩

/-- In `A1\t1 ` there is a pin, a tab, a constant and a blank, and `A11` has the same symbols. In
`A1 A7` the first byte where no symbol starts is byte 3, that of the second `A`. -/
theorem ofText_eq_ok_iff_exists_layout_pins :
    ofText "A1\t1 " = .ok [⟨.pin 1, 0⟩, ⟨.one, 3⟩, ⟨.finish, 5⟩] ∧
      (∃ ts, ofText "A11" = .ok ts ∧ ts.map Token.symbol = [.pin 1, .one, .finish]) ∧
      (∃ e, ofText "A1 A7" = .error (.parse e) ∧ e.offset = 3) ∧
      ∃ e, ofText "A1 A7" = .error (.parse e) ∧ IsLeast {p | StuckAt "A1 A7" p} e.offset := by
  let pinOne : Lexeme := ⟨[], ['A', '1'], .pin 1, by simp, by simp [spellings]⟩
  let one : Lexeme := ⟨['\t'], ['1'], .one, by simp [blankChars], by simp [spellings]⟩
  let whole : Layout := ⟨[pinOne, one], [' '], by simp [blankChars]⟩
  let start : Layout := ⟨[pinOne], [' '], by simp [blankChars]⟩
  have hstuck : StuckAt "A1 A7" 3 :=
    ⟨start, "A7", rfl, ⟨by simp, by simp [blankChars], by simp [spellings]⟩, rfl⟩
  obtain ⟨hok, -, hbare, -, -⟩ := ofText_eq_ok_iff_exists_layout "A1\t1 "
  obtain ⟨-, -, -, herror, hat⟩ := ofText_eq_ok_iff_exists_layout "A1 A7"
  refine ⟨(hok _).mpr ⟨whole, rfl, rfl⟩, hbare whole, hat 3 hstuck, ?_⟩
  obtain ⟨e, he, -⟩ := hat 3 hstuck
  obtain ⟨e', he', -, -, hleast⟩ := herror _ he
  cases he'
  exact ⟨e, he, hleast⟩

end Tokens

end LutLogic
