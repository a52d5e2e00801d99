import LutLogic.Toml.Number

/-!
# Blanks, comments, strings and keys of a document

Readers for the parts of TOML that hold text. Control characters other than the tab stand neither
in comments nor in strings; a line ends with a line feed, which a carriage return may precede. A
string in three quotation marks may run over several lines, and one or two quotation marks may
stand in it anywhere.
-/

namespace LutLogic.Toml

/-- A blank inside a line. -/
def isSpace (c : Char) : Bool := c = ' ' || c = '\t'

/-- A character of a comment or a string: the tab, and everything that is no control character. -/
def isPrintable (c : Char) : Bool := c = '\t' || (decide (' ' ≤ c) && c ≠ '\x7f')

/-- Skips blanks. -/
def skipSpaces (cs : List Char) : List Char := cs.dropWhile isSpace

/-- Reads a line break. -/
def newline? : List Char → Option (List Char)
  | '\n' :: cs => some cs
  | '\r' :: '\n' :: cs => some cs
  | _ => none

/-- Skips a comment, up to the end of its line. -/
def skipComment : List Char → List Char
  | '#' :: cs => cs.dropWhile isPrintable
  | cs => cs

/-- Reads the end of a line, which is a line break or the end of the text, after blanks and a
comment. -/
def lineEnd? (cs : List Char) : Option (List Char) :=
  match skipComment (skipSpaces cs) with
  | [] => some []
  | rest => newline? rest

/-- Skips blanks, line breaks and comments. A character that may not stand in a comment ends the
skipping, and no value starts with such a character. -/
def skipLines (inComment : Bool) : List Char → List Char
  | [] => []
  | '\n' :: cs => skipLines false cs
  | '\r' :: '\n' :: cs => skipLines false cs
  | c :: cs =>
    if inComment then if isPrintable c then skipLines true cs else c :: cs
    else if isSpace c then skipLines false cs
    else if c = '#' then skipLines true cs
    else c :: cs

/-! ## Strings -/

/-- The character with the code that hexadecimal digits give, if there is one. -/
def codeChar? (digits : List Char) : Option Char :=
  if digits.all (isDigitOf 16) then
    let n := numberOf 16 digits
    if n.isValidChar then some (Char.ofNat n) else none
  else none

/-- The character that a letter after a backslash stands for. -/
def escape? (c : Char) : Option Char :=
  match c with
  | 'b' => some '\x08'
  | 't' => some '\t'
  | 'n' => some '\n'
  | 'f' => some '\x0c'
  | 'r' => some '\r'
  | '"' => some '"'
  | '\\' => some '\\'
  | _ => none

/-- Puts a character in front of a string that has been read. -/
def prepend (c : Char) (r : List Char × List Char) : List Char × List Char := (c :: r.1, r.2)

/-- Reads the rest of a string in quotation marks. -/
def basicBody? : List Char → Option (List Char × List Char)
  | [] => none
  | '"' :: cs => some ([], cs)
  | '\\' :: 'u' :: a :: b :: c :: d :: cs => do
    return prepend (← codeChar? [a, b, c, d]) (← basicBody? cs)
  | '\\' :: 'U' :: a :: b :: c :: d :: e :: f :: g :: h :: cs => do
    return prepend (← codeChar? [a, b, c, d, e, f, g, h]) (← basicBody? cs)
  | '\\' :: c :: cs => do return prepend (← escape? c) (← basicBody? cs)
  | c :: cs => if isPrintable c && c ≠ '\\' then (basicBody? cs).map (prepend c) else none

/-- Reads the rest of a string in apostrophes. -/
def literalBody? : List Char → Option (List Char × List Char)
  | [] => none
  | '\'' :: cs => some ([], cs)
  | c :: cs => if isPrintable c then (literalBody? cs).map (prepend c) else none

/-- Reads the rest of a string in three quotation marks. While `joining`, blanks and line breaks
are dropped: they follow a backslash at the end of a line. -/
def longBasicBody? (joining : Bool) : List Char → Option (List Char × List Char)
  | [] => none
  | '"' :: '"' :: '"' :: '"' :: '"' :: cs => some (['"', '"'], cs)
  | '"' :: '"' :: '"' :: '"' :: cs => some (['"'], cs)
  | '"' :: '"' :: '"' :: cs => some ([], cs)
  | '\\' :: 'u' :: a :: b :: c :: d :: cs => do
    return prepend (← codeChar? [a, b, c, d]) (← longBasicBody? false cs)
  | '\\' :: 'U' :: a :: b :: c :: d :: e :: f :: g :: h :: cs => do
    return prepend (← codeChar? [a, b, c, d, e, f, g, h]) (← longBasicBody? false cs)
  | '\\' :: c :: cs =>
    if (newline? (skipSpaces (c :: cs))).isSome then longBasicBody? true (c :: cs)
    else do return prepend (← escape? c) (← longBasicBody? false cs)
  | '\r' :: '\n' :: cs =>
    if joining then longBasicBody? true cs else (longBasicBody? false cs).map (prepend '\n')
  | c :: cs =>
    if joining && (isSpace c || c = '\n') then longBasicBody? true cs
    else if c = '\n' || (isPrintable c && c ≠ '\\') then
      (longBasicBody? false cs).map (prepend c)
    else none

/-- Reads the rest of a string in three apostrophes. -/
def longLiteralBody? : List Char → Option (List Char × List Char)
  | [] => none
  | '\'' :: '\'' :: '\'' :: '\'' :: '\'' :: cs => some (['\'', '\''], cs)
  | '\'' :: '\'' :: '\'' :: '\'' :: cs => some (['\''], cs)
  | '\'' :: '\'' :: '\'' :: cs => some ([], cs)
  | '\r' :: '\n' :: cs => (longLiteralBody? cs).map (prepend '\n')
  | c :: cs =>
    if c = '\n' || isPrintable c then (longLiteralBody? cs).map (prepend c) else none

/-- A text without the line break that it may start with. -/
def skipNewline (cs : List Char) : List Char := (newline? cs).getD cs

/-- Reads a string that keeps to one line. -/
def shortString? : List Char → Option (List Char × List Char)
  | '"' :: cs => basicBody? cs
  | '\'' :: cs => literalBody? cs
  | _ => none

/-- Reads a string of any form. -/
def string? : List Char → Option (List Char × List Char)
  | '"' :: '"' :: '"' :: cs => longBasicBody? false (skipNewline cs)
  | '\'' :: '\'' :: '\'' :: cs => longLiteralBody? (skipNewline cs)
  | cs => shortString? cs

/-! ## Keys -/

/-- A character of a key without quotation marks. -/
def isBareKeyChar (c : Char) : Bool := c.isAlphanum || c = '-' || c = '_'

/-- Reads one part of a key. -/
def keyPart? (cs : List Char) : Option (String × List Char) :=
  match cs with
  | '"' :: _ | '\'' :: _ => (shortString? cs).map fun (s, rest) => (String.ofList s, rest)
  | _ =>
    let name := cs.takeWhile isBareKeyChar
    if name = [] then none else some (String.ofList name, cs.dropWhile isBareKeyChar)

/-- The most parts of a key. -/
def maxKeyParts : Nat := 79

/-- Reads a key of at most `parts` parts, which dots separate. Blanks may surround each part. -/
def key? : Nat → List Char → Option (List String × List Char)
  | 0, _ => none
  | parts + 1, cs =>
    match keyPart? (skipSpaces cs) with
    | none => none
    | some (name, rest) =>
      match skipSpaces rest with
      | '.' :: rest => (key? parts rest).map fun (names, rest) => (name :: names, rest)
      | rest => some ([name], rest)

/-- Reads a key as the parts before the last and the last. -/
def path? (cs : List Char) : Option (List String × String × List Char) := do
  let (names, rest) ← key? maxKeyParts cs
  return (names.dropLast, ← names.getLast?, rest)

end LutLogic.Toml
