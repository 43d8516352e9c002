import JsMinify.Lexer
import JsMinify.Grammar.Automaton

/-!
# The parser

`Parser.parse` runs the automaton of the grammar over the tokens of a text. `Config.step` is one move:
read a token, shift it, reduce a rule, accept, or deal with a token that does not fit. A token that
does not fit is put off once by a made up semicolon, where the language allows one; the second time
it is an error. A parser can be used again: the line of its lexer, the tokens pushed back and the
tokens once put off stay.
-/

namespace JsMinify

open Grammar

/-- Why a text has no tree. -/
inductive ParseError where
  /-- The text could not be read. -/
  | lex (e : LexError)
  /-- A token does not fit. The tokens before and after it tell the place. -/
  | unexpected (t : Token) (before after : Option Token)
  /-- The automaton has no way on. No text leads here. -/
  | stuck
  deriving DecidableEq, Repr

def ParseError.message : ParseError → String
  | .lex e => e.message
  | .unexpected t before after =>
    "Unexpected token (" ++ t.kind.name ++ ", " ++ Text.quoted t.text ++ ") at " ++ t.line.repr
      ++ ":" ++ t.pos.repr ++ " between " ++ Token.display? before ++ " and "
      ++ Token.display? after
  | .stuck => "The parser cannot go on"

/-- A recognised symbol on the stack, with the state after it. -/
structure Frame where
  state : State
  sym : Sym
  item : Item
  deriving Repr

/-- What outlives a text: the lexer, and the tokens once put off. -/
structure Parser where
  lexer : Lexer := {}
  seen : List Token := []

/-- The state of a run. -/
structure Config where
  parser : Parser
  /-- The recognised symbols, the latest first. -/
  stack : List Frame := []
  /-- The next token, or the end of the text, if it was read already. -/
  ahead : Option (Option Token) := none

/-- What a move leads to. -/
inductive Progress where
  | next (c : Config)
  | accepted (tree : Node) (p : Parser)
  | failed (e : ParseError) (p : Parser)

namespace Config

def state (c : Config) : State :=
  match c.stack with
  | f :: _ => f.state
  | [] => 0

def read (c : Config) : Progress :=
  match c.parser.lexer.token with
  | (.error e, l) => .failed (.lex e) { c.parser with lexer := l }
  | (.ok t, l) => .next { c with parser := { c.parser with lexer := l }, ahead := some t }

def shift (c : Config) (t : Token) (s : State) : Progress :=
  .next { c with stack := ⟨s, .t t.kind, ⟨.token t, t.line⟩⟩ :: c.stack, ahead := none }

/-- Puts the left side of a rule in place of its right side. Its line is that of the first symbol,
or the current one if there is none. -/
def reduce (c : Config) (i : Nat) : Progress :=
  match Table.rule? i with
  | none => .failed .stuck c.parser
  | some r =>
    let frames := (c.stack.take r.right.length).reverse
    let rest := c.stack.drop r.right.length
    if frames.map (·.sym) = r.right then
      let items := frames.map (·.item)
      let line := match items with
        | first :: _ => first.line
        | [] => c.parser.lexer.line
      let s := Table.goto (Config.state { c with stack := rest }) r.left
      .next { c with stack := ⟨s, .n r.left, ⟨r.action.run items, line⟩⟩ :: rest }
    else .failed .stuck c.parser

/-- Ends the run with the tree on the stack. -/
def accept (c : Config) : Progress :=
  match c.stack with
  | ⟨_, .n .program, ⟨.node tree, _⟩⟩ :: _ => .accepted tree c.parser
  | _ => .failed .stuck c.parser

/-- Ends the run at a token that does not fit. One more token is read for the message. -/
def reject (c : Config) (t : Token) : Progress :=
  let before := c.parser.lexer.prev
  match c.parser.lexer.token with
  | (.error e, l) => .failed (.lex e) { c.parser with lexer := l }
  | (.ok after, l) => .failed (.unexpected t before after) { c.parser with lexer := l }

/-- Tries to put off what does not fit by a semicolon. -/
def putOff (c : Config) (t : Option Token) : Option Progress :=
  match c.parser.lexer.autoSemi t with
  | (some semi, l) =>
    some (.next { c with
      parser := { lexer := l, seen := t.toList ++ c.parser.seen }, ahead := some (some semi) })
  | (none, _) => none

/-- Deals with a token, or the end of the text, that does not fit. -/
def recover (c : Config) : Option Token → Progress
  | none => (c.putOff none).getD (.failed .stuck c.parser)
  | some t =>
    if c.parser.seen.contains t || t.kind = .semi then c.reject t
    else (c.putOff (some t)).getD (c.reject t)

def step (c : Config) : Progress :=
  match Table.forced? c.state with
  | some rule => c.reduce rule
  | none =>
    match c.ahead with
    | none => c.read
    | some look =>
      match Table.move c.state (look.map (·.kind)), look with
      | some (.shift s), some t => c.shift t s
      | some (.reduce rule), _ => c.reduce rule
      | some .accept, _ => c.accept
      | _, _ => c.recover look

def run : Nat → Config → Except ParseError Node × Parser
  | 0, c => (.error .stuck, c.parser)
  | fuel + 1, c =>
    match c.step with
    | .next c' => run fuel c'
    | .accepted tree p => (.ok tree, p)
    | .failed e p => (.error e, p)

end Config

namespace Parser

/-- How many moves a text of a given length is allowed. A token takes a few dozen reductions at most,
and there are at most twice as many tokens, made up ones included, as characters. -/
def budget (length : Nat) : Nat := 200 * (length + 5)

/-- The tree of a text, or the reason why it has none. -/
def parse (p : Parser) (text : String) : Except ParseError Node × Parser :=
  Config.run (budget text.length) { parser := { p with lexer := p.lexer.input text } }

end Parser

def parse (text : String) : Except ParseError Node × Parser := ({} : Parser).parse text

end JsMinify
