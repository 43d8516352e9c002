import JsMinify.Token.Lexeme

/-!
# The lexer

A `Lexer` reads a text token by token. `Lexer.token` hands out the next token of a program: it skips
blanks, line breaks and comments, decides whether a slash divides or opens a regular expression, and
ends a statement at the line break after `break`, `continue`, `return` and `throw`.
`Lexer.autoSemi` makes up a semicolon for a parser that cannot go on; the token it could not take is
pushed back and handed out again.

Lines are counted when a token is handed out, so a token's line is that of its last character.
Characters that begin no token are reported and skipped.
-/

namespace JsMinify

/-- A character that begins no token, with the token the lexer had read before it. -/
structure IllegalChar where
  char : Char
  line : Nat
  pos : Nat
  after : Option Token
  deriving DecidableEq, Repr

def IllegalChar.message (r : IllegalChar) : String :=
  "Illegal character " ++ Text.quoted (String.singleton r.char) ++ " at " ++ r.line.repr ++ ":"
    ++ r.pos.repr ++ " after " ++ Token.display? r.after

/-- Why no token could be read. -/
inductive LexError where
  /-- No text was given. -/
  | noText
  /-- A slash that must open a regular expression opens none: the rest of the text, and the line. -/
  | badRegex (rest : String) (line : Nat)
  /-- Only illegal characters are left, and more than one. -/
  | onlyIllegal
  deriving DecidableEq, Repr

def LexError.message : LexError → String
  | .noText => "'NoneType' object is not subscriptable"
  | .badRegex rest line =>
    "Error parsing regular expression '" ++ rest ++ "' at " ++ line.repr
  | .onlyIllegal => "'NoneType' object has no attribute 'type'"

/-- The lexer either takes any token or, inside a slash, a regular expression only. -/
inductive LexMode where
  | ordinary
  | regex
  deriving DecidableEq, Repr

/-- The state of a lexer. -/
structure Lexer where
  /-- A text has been given. -/
  loaded : Bool := false
  /-- The text still to be read. -/
  rest : List Char := []
  /-- How many characters lie before `rest`; reading at the end of the text adds one each time. -/
  pos : Nat := 0
  /-- The current line. -/
  line : Nat := 1
  mode : LexMode := .ordinary
  /-- The token read before `cur`, comments and line breaks included. -/
  prev : Option Token := none
  /-- The token read last, comments and line breaks included. -/
  cur : Option Token := none
  /-- Tokens pushed back, the next one first. -/
  pushed : List Token := []
  /-- The illegal characters met, in order. -/
  illegal : List IllegalChar := []
  deriving DecidableEq, Repr

/-- The outcome of reading: a value or an error, and in both cases the state afterwards. -/
abbrev LexResult (α : Type) := Except LexError α × Lexer

namespace Lexer

/-- Blanks that separate tokens. -/
def isBlank (c : Char) : Bool := c = ' ' || c = '\t'

/-- Gives the lexer a new text. The line, the tokens read and pushed back and the mode stay. -/
def input (l : Lexer) (text : String) : Lexer :=
  { l with loaded := true, rest := text.toList, pos := 0 }

/-- Moves past the line breaks of a token. -/
def countBreaks (l : Lexer) (t : Token) : Lexer :=
  { l with line := l.line + t.breaks }

/-- The lexeme at the head of the text in the current mode. -/
def rule? (l : Lexer) : List Char → Option (TokenKind × Nat) :=
  match l.mode with
  | .ordinary => Lexeme.rule?
  | .regex => fun s => (Lexeme.regex? s).map (TokenKind.regex, ·)

/-- Takes the lexeme of kind `kind` and length `n` that begins the text `s` at position `pos`. The
continued lines of a string are joined and counted. -/
def take (l : Lexer) (s : List Char) (pos : Nat) (kind : TokenKind) (n : Nat) : Token × Lexer :=
  let lexeme := s.take n
  let next := { l with rest := s.drop n, pos := pos + n }
  if kind = .string then
    (⟨kind, String.ofList (Lexeme.joinLines lexeme), l.line, pos⟩,
      { next with line := l.line + Lexeme.continuations lexeme })
  else (⟨kind, String.ofList lexeme, l.line, pos⟩, next)

/-- Reads one raw token from the text `s` at position `pos`, skipping blanks and reporting illegal
characters; `none` at the end of the text. -/
def scanFrom (l : Lexer) : List Char → Nat → LexResult (Option Token)
  | [], pos => (.ok none, { l with rest := [], pos := pos + 1 })
  | c :: s, pos =>
    if isBlank c then scanFrom l s (pos + 1)
    else
      match l.rule? (c :: s) with
      | some (kind, n) =>
        let (t, l') := l.take (c :: s) pos kind n
        (.ok (some t), l')
      | none =>
        match l.mode with
        | .ordinary =>
          scanFrom { l with illegal := l.illegal ++ [⟨c, l.line, pos, l.prev⟩] } s (pos + 1)
        | .regex =>
          (.error (.badRegex (String.ofList (c :: s)) l.line), { l with rest := c :: s, pos := pos })

def scan (l : Lexer) : LexResult (Option Token) := l.scanFrom l.rest l.pos

/-- A made up semicolon that stands where `t` stands, or at the current place. The line breaks of
`t` are counted. -/
def makeSemi (l : Lexer) : Option Token → Token × Lexer
  | some t => (⟨.semi, ";", t.line, t.pos⟩, l.countBreaks t)
  | none => (⟨.semi, ";", l.line, l.pos⟩, l)

/-- Reads one raw token and remembers it. A line break after a restricted word gives a semicolon. -/
def advance (l : Lexer) : LexResult (Option Token) :=
  match { l with prev := l.cur }.scan with
  | (.error e, l') => (.error e, l')
  | (.ok none, l') => (.ok none, { l' with cur := none })
  | (.ok (some t), l') =>
    let l' := { l' with cur := some t }
    if t.kind = .lineEnd && l'.prev.any (·.kind.isRestricted) then
      let (semi, l'') := l'.makeSemi (some t)
      (.ok (some semi), l'')
    else (.ok (some t), l')

def readRegex (l : Lexer) : LexResult (Option Token) :=
  match { l with prev := l.cur, mode := .regex }.scan with
  | (.error e, l') => (.error e, l')
  | (.ok t, l') => (.ok t, { l' with cur := t, mode := .ordinary })

/-- Hands out a token just read: its line is the current one after its own line breaks. -/
def handOut (l : Lexer) (t : Token) : Token × Lexer :=
  let l' := l.countBreaks t
  let t' := { t with line := l'.line }
  (t', if l.cur = some t then { l' with cur := some t' } else l')

/-- Hands out what was just read, or nothing at the end of the text. -/
def handOut? (l : Lexer) : Option Token → LexResult (Option Token)
  | some t => let (t', l') := l.handOut t; (.ok (some t'), l')
  | none => (.ok none, l)

/-- Hands out a token that was pushed back. Wherever the lexer still holds the token, it takes the
new line too. -/
def handBack (l : Lexer) (t : Token) (rest : List Token) : Token × Lexer :=
  let l' := l.countBreaks t
  let t' := { t with line := l'.line }
  let renew (u : Token) : Token := if u = t then t' else u
  (t', { l' with prev := l.prev.map renew, cur := l.cur.map renew, pushed := rest.map renew })

/-- A slash at this point divides. -/
def slashDivides (l : Lexer) : Bool := l.cur.any (·.kind.endsOperand)

/-- Reads on until a token of the program turns up. Each line break or comment passed takes one from
`fuel`. -/
def skipTrivia : Nat → Lexer → LexResult (Option Token)
  | 0, l => (.ok none, l)
  | fuel + 1, l =>
    match l.rest.dropWhile isBlank with
    | c :: d :: _ =>
      if c ≠ '/' || d = '/' || d = '*' then
        match l.advance with
        | (.error e, l') => (.error e, l')
        | (.ok none, l') => (.error .onlyIllegal, l')
        | (.ok (some t), l') =>
          if t.kind.isTrivia then skipTrivia fuel (l'.countBreaks t) else l'.handOut? (some t)
      else if l.slashDivides then
        match l.advance with
        | (.error e, l') => (.error e, l')
        | (.ok t, l') => l'.handOut? t
      else
        match l.readRegex with
        | (.error e, l') => (.error e, l')
        | (.ok t, l') => l'.handOut? t
    | _ =>
      match l.advance with
      | (.error e, l') => (.error e, l')
      | (.ok none, l') => (.ok none, l')
      | (.ok (some t), l') =>
        if t.kind = .lineEnd then skipTrivia fuel (l'.countBreaks t) else l'.handOut? (some t)

/-- The next token of the program, or `none` at the end of the text. Tokens pushed back come
first. -/
def token (l : Lexer) : LexResult (Option Token) :=
  match l.pushed with
  | t :: rest => let (t', l') := l.handBack t rest; (.ok (some t'), l')
  | [] => if l.loaded then l.skipTrivia (l.rest.length + 1) else (.error .noText, l)

/-- A semicolon may be made up before the end of the text, before a closing brace and after a line
break. -/
def semiAllowed (l : Lexer) : Option Token → Bool
  | none => true
  | some t => t.kind = .rbrace || l.prev.any (·.kind = .lineEnd)

/-- Makes up a semicolon before `t`, which is pushed back, if the language allows one there. -/
def autoSemi (l : Lexer) (t : Option Token) : Option Token × Lexer :=
  if l.semiAllowed t then
    let (semi, l') := { l with pushed := t.toList ++ l.pushed }.makeSemi t
    (some semi, l')
  else (none, l)

/-- All tokens up to the end of the text or an error. -/
def drainFrom : Nat → Lexer → List Token × Except LexError Unit × Lexer
  | 0, l => ([], .ok (), l)
  | fuel + 1, l =>
    match l.token with
    | (.error e, l') => ([], .error e, l')
    | (.ok none, l') => ([], .ok (), l')
    | (.ok (some t), l') =>
      let (ts, r) := drainFrom fuel l'
      (t :: ts, r)

/-- All tokens up to the end of the text or an error. A token takes a pushed one or at least one
character, so there are no more of them than the bound used. -/
def drain (l : Lexer) : List Token × Except LexError Unit × Lexer :=
  drainFrom (l.pushed.length + l.rest.length + 1) l

end Lexer

def tokenize (text : String) : List Token × Except LexError Unit × Lexer :=
  (({} : Lexer).input text).drain

end JsMinify
