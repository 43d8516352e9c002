import JsMinify.Text.Printable

/-!
# Quoted text in messages

A message shows a piece of text between quotes, on one line and in printable characters only.
`quoted` chooses the quote, and `escape` writes each character.
-/

namespace JsMinify.Text

/-- The digits of `n` in base sixteen, lower case, filled up with zeros to `width`. -/
def hex (width n : Nat) : List Char :=
  let digits := Nat.toDigits 16 n
  List.replicate (width - digits.length) '0' ++ digits

/-- How one character is written between quotes `q`: the quote, the backslash and the three usual
blanks after a backslash, other unprintable characters by their number, all else as it is. -/
def escape (q c : Char) : List Char :=
  if c = q || c = '\\' then ['\\', c]
  else if c = '\n' then ['\\', 'n']
  else if c = '\r' then ['\\', 'r']
  else if c = '\t' then ['\\', 't']
  else if isPrintable c then [c]
  else if c.toNat < 0x100 then '\\' :: 'x' :: hex 2 c.toNat
  else if c.toNat < 0x10000 then '\\' :: 'u' :: hex 4 c.toNat
  else '\\' :: 'U' :: hex 8 c.toNat

/-- Double quotes serve only a text that holds a single quote and no double one. -/
def quoteFor (s : List Char) : Char :=
  if s.contains '\'' && !s.contains '"' then '"' else '\''

def quoted (text : String) : String :=
  let s := text.toList
  let q := quoteFor s
  String.ofList (q :: s.flatMap (escape q) ++ [q])

end JsMinify.Text
