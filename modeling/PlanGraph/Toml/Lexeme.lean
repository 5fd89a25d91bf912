import PlanGraph.Text.Basic

set_option autoImplicit false

/-! # Gaps, comments and strings of TOML

The smallest parts of a settings file. Each reader takes its part off the front of a text and
answers with what it means and what follows. -/

namespace PlanGraph

namespace Toml

/-! ## Characters -/

/-- A blank inside a line. -/
def isGap (c : Char) : Bool := c == ' ' || c == '\t'

/-- A character that may stand in a line: no control character but the tab. -/
def isPrintable (c : Char) : Bool := c == '\t' || (0x20 ≤ c.toNat && c.toNat ≠ 0x7F)

/-- The value of a hexadecimal digit. -/
def hexValue? (c : Char) : Option Nat :=
  if c.isDigit then some (c.toNat - '0'.toNat)
  else if 'a' ≤ c && c ≤ 'f' then some (c.toNat - 'a'.toNat + 10)
  else if 'A' ≤ c && c ≤ 'F' then some (c.toNat - 'A'.toNat + 10)
  else none

/-- The value of a run of hexadecimal digits. -/
def hexValueOf? (digits : Text) : Option Nat :=
  digits.foldlM (fun n c => (hexValue? c).map (16 * n + ·)) 0

/-- The character of a code point, if it has one. -/
def charOf? (code : Nat) : Option Char :=
  if code.isValidChar then some (Char.ofNat code) else none

/-! ## Gaps and line ends -/

/-- A text without the gap at its front. -/
def skipGap (t : Text) : Text := t.dropWhile isGap

/-- What follows the end of a line; the end of the text is one too. -/
def lineEnd? : Text → Option Text
  | [] => some []
  | '\n' :: rest => some rest
  | '\r' :: '\n' :: rest => some rest
  | _ => none

/-- A text without the comment at its front. -/
def skipComment : Text → Text
  | '#' :: rest => rest.dropWhile isPrintable
  | t => t

/-- What follows a line of which nothing but a gap and a comment is left. -/
def restOfLine? (t : Text) : Option Text := lineEnd? (skipComment (skipGap t))

/-- A text without the gaps, line breaks and comments at its front, where a comment may already have
    begun. -/
def skipLines (inComment : Bool) : Text → Text
  | [] => []
  | '\r' :: '\n' :: rest => skipLines false rest
  | c :: rest =>
    if c = '\n' then skipLines false rest
    else if inComment then
      if isPrintable c then skipLines true rest else c :: rest
    else if isGap c then skipLines false rest
    else if c = '#' then skipLines true rest
    else c :: rest

/-! ## Strings -/

/-- The character that a backslash and this letter spell. -/
def escape? : Char → Option Char
  | 'b' => some '\x08'
  | 't' => some '\t'
  | 'n' => some '\n'
  | 'f' => some '\x0c'
  | 'r' => some '\r'
  | '"' => some '"'
  | '\\' => some '\\'
  | _ => none

/-- Puts a character in front of what a reader has read. -/
def consTo (c : Char) (read : Option (Text × Text)) : Option (Text × Text) :=
  read.map fun (s, rest) => (c :: s, rest)

/-- The rest of a string in double quotes on one line. -/
def basicBody? : Text → Option (Text × Text)
  | [] => none
  | '"' :: rest => some ([], rest)
  | '\\' :: 'u' :: a :: b :: c :: d :: rest =>
    ((hexValueOf? [a, b, c, d]).bind charOf?).bind fun x => consTo x (basicBody? rest)
  | '\\' :: 'U' :: a :: b :: c :: d :: e :: f :: g :: h :: rest =>
    ((hexValueOf? [a, b, c, d, e, f, g, h]).bind charOf?).bind fun x => consTo x (basicBody? rest)
  | '\\' :: letter :: rest => (escape? letter).bind fun x => consTo x (basicBody? rest)
  | c :: rest => if isPrintable c && c != '\\' then consTo c (basicBody? rest) else none

/-- The rest of a string in single quotes on one line. -/
def literalBody? : Text → Option (Text × Text)
  | [] => none
  | '\'' :: rest => some ([], rest)
  | c :: rest => if isPrintable c then consTo c (literalBody? rest) else none

/-- Whether nothing but a gap is left of a line that is not the last. -/
def opensLineBreak (t : Text) : Bool :=
  match skipGap t with
  | '\n' :: _ => true
  | '\r' :: '\n' :: _ => true
  | _ => false

/-- The rest of a string in three double quotes, which may run over several lines. A backslash at
    the end of a line drops all blanks up to the next character; `trimming` says that this is under
    way. Up to two quotes may stand before the closing ones. -/
def longBasicBody? (trimming : Bool) : Text → Option (Text × Text)
  | [] => none
  | '"' :: '"' :: '"' :: '"' :: '"' :: rest => some (['"', '"'], rest)
  | '"' :: '"' :: '"' :: '"' :: rest => some (['"'], rest)
  | '"' :: '"' :: '"' :: rest => some ([], rest)
  | '\\' :: 'u' :: a :: b :: c :: d :: rest =>
    ((hexValueOf? [a, b, c, d]).bind charOf?).bind fun x => consTo x (longBasicBody? false rest)
  | '\\' :: 'U' :: a :: b :: c :: d :: e :: f :: g :: h :: rest =>
    ((hexValueOf? [a, b, c, d, e, f, g, h]).bind charOf?).bind fun x =>
      consTo x (longBasicBody? false rest)
  | '\r' :: '\n' :: rest =>
    if trimming then longBasicBody? true rest else consTo '\n' (longBasicBody? false rest)
  | '\\' :: letter :: rest =>
    if opensLineBreak (letter :: rest) then longBasicBody? true (letter :: rest)
    else (escape? letter).bind fun x => consTo x (longBasicBody? false rest)
  | c :: rest =>
    if trimming && (isGap c || c == '\n') then longBasicBody? true rest
    else if c = '\n' || (isPrintable c && c != '\\') then consTo c (longBasicBody? false rest)
    else none

/-- The rest of a string in three single quotes, which may run over several lines. -/
def longLiteralBody? : Text → Option (Text × Text)
  | [] => none
  | '\'' :: '\'' :: '\'' :: '\'' :: '\'' :: rest => some (['\'', '\''], rest)
  | '\'' :: '\'' :: '\'' :: '\'' :: rest => some (['\''], rest)
  | '\'' :: '\'' :: '\'' :: rest => some ([], rest)
  | '\r' :: '\n' :: rest => consTo '\n' (longLiteralBody? rest)
  | c :: rest => if c = '\n' || isPrintable c then consTo c (longLiteralBody? rest) else none

/-- A long string without the line break at its very front. -/
def skipFirstBreak : Text → Text
  | '\n' :: rest => rest
  | '\r' :: '\n' :: rest => rest
  | t => t

/-- The string at the front of a text. -/
def string? : Text → Option (Text × Text)
  | '"' :: '"' :: '"' :: rest => longBasicBody? false (skipFirstBreak rest)
  | '"' :: rest => basicBody? rest
  | '\'' :: '\'' :: '\'' :: rest => longLiteralBody? (skipFirstBreak rest)
  | '\'' :: rest => literalBody? rest
  | _ => none

end Toml

end PlanGraph
