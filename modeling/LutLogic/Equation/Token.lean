import LutLogic.Error

/-!
# Tokens of equation text

A text is cut into symbols with the byte offset of each. Blanks may stand between any two symbols
and none are needed: every symbol is one character, except for a pin, which is `A` and one digit.
`Tokens.scan` does the cutting; the end of the text, at `stop`, is itself a place that later
faults can name.
-/

namespace LutLogic

/-- A symbol and the byte offset at which it starts. -/
structure Token where
  /-- The symbol. -/
  symbol : Symbol
  /-- The byte offset of its first character. -/
  offset : Nat
deriving DecidableEq, Repr

/-- The tokens of a text and the byte offset of its end. -/
structure Tokens where
  /-- The tokens in order. -/
  tokens : List Token
  /-- The length of the text in bytes. -/
  stop : Nat
deriving DecidableEq, Repr

/-- The blanks that may stand between symbols: space, tab, line feed, form feed and carriage
return. -/
def isBlank (c : Char) : Bool :=
  c = ' ' || c = '\t' || c = '\n' || c = '\x0c' || c = '\r'

/-- The symbol that a single character stands for. -/
def Symbol.ofChar? (c : Char) : Option Symbol :=
  match c with
  | '0' => some zero
  | '1' => some one
  | '~' => some tilde
  | '(' => some leftParen
  | ')' => some rightParen
  | _ => (BinaryOp.ofSymbol? c).map op

/-- The pin that a digit after `A` stands for. -/
def pinOfDigit? (c : Char) : Option Nat :=
  if '1' ≤ c ∧ c ≤ '6' then some (c.toNat - 48) else none

namespace Tokens

/-- The tokens of a text whose first character is at byte `pos`. -/
def scanFrom (pos : Nat) : List Char → Except Fault (List Token)
  | [] => .ok []
  | 'A' :: cs =>
    -- One digit belongs to the pin; a second one is a symbol of its own.
    match cs with
    | [] => .error ⟨pos, .unknownPin⟩
    | d :: rest =>
      match pinOfDigit? d with
      | none => .error ⟨pos, .unknownPin⟩
      | some index => (scanFrom (pos + 2) rest).map (⟨.pin index, pos⟩ :: ·)
  | c :: cs =>
    if isBlank c then scanFrom (pos + 1) cs
    else
      match Symbol.ofChar? c with
      | none => .error ⟨pos, .unrecognizedCharacter⟩
      | some s => (scanFrom (pos + 1) cs).map (⟨s, pos⟩ :: ·)

/-- The tokens of a text. -/
def scan (text : List Char) : Except Fault Tokens :=
  (scanFrom 0 text).map (⟨·, Text.byteCount text⟩)

/-- The tokens of an equation text, the last of them its end. -/
def ofText (text : String) : Except LutError (List Token) :=
  (Fault.within .equation text (scan text.toList)).map fun ts =>
    ts.tokens ++ [⟨.finish, ts.stop⟩]

end Tokens

end LutLogic
