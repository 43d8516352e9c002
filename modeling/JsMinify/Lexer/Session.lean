import JsMinify.Lexer

/-!
# Reading step by step

A `LexSession` is a lexer with the token that was asked for last, which may be handed back to it as the
one that did not fit.
-/

namespace JsMinify

/-- A lexer and the token handed out last. -/
structure LexSession where
  lexer : Lexer := {}
  last : Option Token := none

namespace LexSession

def input (s : LexSession) (text : String) : LexSession := { s with lexer := s.lexer.input text }

def token (s : LexSession) : Except LexError (Option Token) × LexSession :=
  match s.lexer.token with
  | (.ok t, l) => (.ok t, ⟨l, t⟩)
  | (.error e, l) => (.error e, ⟨l, none⟩)

/-- A made up semicolon, before the last token if `useLast`, else before the end of the text. -/
def autoSemi (s : LexSession) (useLast : Bool) : Option Token × LexSession :=
  let (t, l) := s.lexer.autoSemi (if useLast then s.last else none)
  (t, { s with lexer := l })

/-- The tokens up to the end of the text. Tokens pushed back are the last one, which takes the line
of its latest handing out. -/
def drain (s : LexSession) : List Token × Except LexError Unit × LexSession :=
  let (ts, r, l) := s.lexer.drain
  let last :=
    if s.last.any s.lexer.pushed.contains then (ts.take s.lexer.pushed.length).getLast? else s.last
  (ts, r, ⟨l, last⟩)

/-- The session with no illegal characters on record. -/
def forgetIllegal (s : LexSession) : LexSession := { s with lexer := { s.lexer with illegal := [] } }

end LexSession

end JsMinify
