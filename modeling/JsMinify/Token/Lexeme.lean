import JsMinify.Text.Classes
import JsMinify.Token

/-!
# Lexemes

For each form of token, how many characters at the head of a text make it up. Every function counts
characters of a list, so a lexeme is always `s.take n` and what follows it `s.drop n`. `Lexeme.rule?`
puts the forms into their order: the first that fits wins.
-/

namespace JsMinify.Lexeme

open JsMinify.Text

/-- The length of the longest head of `s` whose characters all satisfy `p`. -/
def run (p : Char → Bool) (s : List Char) : Nat := (s.takeWhile p).length

/-! ## Names -/

/-- A character that can begin a name. -/
def isNameStart (c : Char) : Bool :=
  c.isAlpha || c = '_' || c = '$' || (0x80 ≤ c.toNat && letterRanges.contains c)

/-- A character that can follow the leading letters of a name. Letters beyond ASCII are not among
them: such a letter only stands in the leading part. -/
def isNamePart (c : Char) : Bool :=
  c.isAlphanum || c = '_' || c = '$' ||
    (0x80 ≤ c.toNat &&
      (combiningRanges.contains c || digitRanges.contains c || connectorRanges.contains c))

/-- A name: leading letters, then further characters. -/
def name? (s : List Char) : Option Nat :=
  let n := run isNameStart s
  if n = 0 then none else some (n + run isNamePart (s.drop n))

/-- The word `get` or `set` before one blank character and a name. -/
def accessor? (word : String) (s : List Char) : Option Nat :=
  let w := word.toList
  if w.isPrefixOf s then
    match s.drop w.length with
    | c :: d :: _ => if blankRanges.contains c && isNameStart d then some w.length else none
    | _ => none
  else none

/-! ## Strings -/

/-- Characters that a backslash may stand before: letters and punctuation of ASCII. -/
def isEscapable (c : Char) : Bool :=
  0x21 ≤ c.toNat && c.toNat ≤ 0x7e && !c.isDigit

/-- What follows the opening quote of a string, up to and with the closing one. A backslash before a
line break continues the string on the next line. -/
def stringTail? (quote : Char) : List Char → Option Nat
  | [] => none
  | '\\' :: c :: s =>
    if c = '\n' || isEscapable c then (stringTail? quote s).map (· + 2) else none
  | c :: s =>
    if c = quote then some 1
    else if c = '\\' || c = '\n' || c = '\r' then none
    else (stringTail? quote s).map (· + 1)

def string? : List Char → Option Nat
  | c :: s => if c = '"' || c = '\'' then (stringTail? c s).map (· + 1) else none
  | [] => none

/-- The text without its continued line breaks, each a backslash and a line break. -/
def joinLines : List Char → List Char
  | '\\' :: '\n' :: s => joinLines s
  | c :: s => c :: joinLines s
  | [] => []

def continuations : List Char → Nat
  | '\\' :: '\n' :: s => continuations s + 1
  | _ :: s => continuations s
  | [] => 0

/-! ## Numbers -/

def isHexDigit (c : Char) : Bool :=
  c.isDigit || ('a' ≤ c && c ≤ 'f') || ('A' ≤ c && c ≤ 'F')

def isOctalDigit (c : Char) : Bool := '0' ≤ c && c ≤ '7'

/-- The length of an exponent, zero if there is none. -/
def exponent : List Char → Nat
  | e :: c :: s =>
    if e = 'e' || e = 'E' then
      if c = '+' || c = '-' then
        let n := run Char.isDigit s
        if n = 0 then 0 else n + 2
      else
        let n := run Char.isDigit (c :: s)
        if n = 0 then 0 else n + 1
    else 0
  | _ => 0

/-- The length of a whole number without leading zeros, zero if there is none. -/
def whole : List Char → Nat
  | '0' :: _ => 1
  | s => run Char.isDigit s

/-- A decimal number: a whole part with or without a fraction, or a fraction alone, and perhaps an
exponent. -/
def decimal? (s : List Char) : Option Nat :=
  match whole s, s.drop (whole s) with
  | 0, '.' :: r =>
    let n := run Char.isDigit r
    if n = 0 then none else some (1 + n + exponent (r.drop n))
  | 0, _ => none
  | w, '.' :: r =>
    let n := run Char.isDigit r
    some (w + 1 + n + exponent (r.drop n))
  | w, r => some (w + exponent r)

/-- A number: hexadecimal, octal with a leading zero, or decimal. -/
def number? (s : List Char) : Option Nat :=
  match s with
  | '0' :: c :: r =>
    let n := run isHexDigit r
    if (c = 'x' || c = 'X') && n ≠ 0 then some (n + 2)
    else
      let n := run isOctalDigit (c :: r)
      if n ≠ 0 then some (n + 1) else decimal? s
  | _ => decimal? s

/-! ## Comments -/

/-- The end of a block comment: everything up to and with the first `*/`. -/
def blockTail? : List Char → Option Nat
  | [] => none
  | '*' :: '/' :: _ => some 2
  | _ :: s => (blockTail? s).map (· + 1)

/-- A comment between `/*` and the first `*/` after it. -/
def blockComment? : List Char → Option Nat
  | '/' :: '*' :: s => (blockTail? s).map (· + 2)
  | _ => none

/-- A comment from `//` to the end of the line. -/
def lineComment? : List Char → Option Nat
  | '/' :: '/' :: s => some (2 + run (fun c => c != '\n' && c != '\r') s)
  | _ => none

/-! ## Regular expressions -/

/-- What follows the opening slash of a regular expression, up to and with the closing one. A slash
inside a class, or after a backslash, does not close it; a backslash stands before any character but
a line break. -/
def regexTail? (inClass : Bool) : List Char → Option Nat
  | [] => none
  | '\\' :: c :: s => if c = '\n' then none else (regexTail? inClass s).map (· + 2)
  | c :: s =>
    if c = '\\' then none
    else if inClass then (regexTail? (c != ']') s).map (· + 1)
    else if c = '/' then some 1
    else (regexTail? (c == '[') s).map (· + 1)

/-- A regular expression with its flags. Its body is not empty and does not begin with a star. -/
def regex? : List Char → Option Nat
  | '/' :: c :: s =>
    if c = '*' || c = '/' then none
    else (regexTail? false (c :: s)).map fun n =>
      n + 1 + run Char.isAlphanum ((c :: s).drop n)
  | _ => none

/-! ## The order of the forms -/

/-- The longest punctuator at the head of the text. -/
def punctuator? (s : List Char) : Option (TokenKind × Nat) :=
  (TokenKind.punctuators.find? fun p => p.1.toList.isPrefixOf s).map fun p => (p.2, p.1.length)

def lineEnd? : List Char → Option Nat
  | '\n' :: _ => some 1
  | _ => none

def word? (s : List Char) : Option (TokenKind × Nat) :=
  (name? s).map fun n => (TokenKind.ofWord (String.ofList (s.take n)), n)

/-- The kind and length of the lexeme at the head of a text: the first form that fits. -/
def rule? (s : List Char) : Option (TokenKind × Nat) :=
  (string? s).map (TokenKind.string, ·)
    <|> (accessor? "get" s).map (TokenKind.getProp, ·)
    <|> (accessor? "set" s).map (TokenKind.setProp, ·)
    <|> word? s
    <|> (number? s).map (TokenKind.number, ·)
    <|> (blockComment? s).map (TokenKind.blockComment, ·)
    <|> (lineComment? s).map (TokenKind.lineComment, ·)
    <|> (lineEnd? s).map (TokenKind.lineEnd, ·)
    <|> punctuator? s

end JsMinify.Lexeme
