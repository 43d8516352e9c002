import JsMinify.Token.Lexeme
import JsMinify.Node.Fold

/-!
# The compact form of a tree

`Node.compact` prints a tree without blanks that are not needed. Braces around a single statement are
dropped, `x["name"]` becomes `x.name`, and the branch of an `if` that has an `else` keeps its braces
exactly when an `if` without an `else` inside it could catch that `else`.
-/

namespace JsMinify

/-- The whole text, up to one line break at its end, is a name and no reserved word. -/
def isIdentifier (text : String) : Bool :=
  let s := text.toList
  match Lexeme.name? s with
  | none => false
  | some n => (s.drop n = [] || s.drop n = ['\n']) && (TokenKind.reserved.lookup text).isNone

/-- A printed piece of a program. -/
structure Printed where
  text : String
  /-- The piece holds an `if` without `else`, outside branches whose braces are already decided. -/
  openIf : Bool := false
  deriving DecidableEq, Repr

namespace Printed

/-- One piece after another. -/
def append (a b : Printed) : Printed := ⟨a.text ++ b.text, a.openIf || b.openIf⟩

instance : Append Printed := ⟨append⟩

instance : Coe String Printed := ⟨fun s => ⟨s, false⟩⟩

/-- Pieces one after another with a separator between them. -/
def join (sep : String) (ps : List Printed) : Printed :=
  ⟨sep.intercalate (ps.map text), ps.any openIf⟩

def braced (p : Printed) : Printed := "\x7b" ++ p ++ "\x7d"

def inParens (p : Printed) : Printed := "(" ++ p ++ ")"

def parensIf (m : Mark) (p : Printed) : Printed := if m.parens then p.inParens else p

/-- The piece begins with one of these characters. -/
def startsWith (p : Printed) (cs : List Char) : Bool :=
  match p.text.toList with
  | c :: _ => cs.contains c
  | [] => false

/-- A word before a piece, with a blank between them unless the piece begins with a bracket. -/
def afterWord (word : String) (p : Printed) : Printed :=
  if p.startsWith ['(', '\x7b'] then word ++ p else word ++ " " ++ p

/-- A piece between braces unless it begins with one. -/
def bracedOnce (p : Printed) : Printed := if p.startsWith ['\x7b'] then p else p.braced

/-- The branch of an `if` with an `else`, printed from a block of one statement: it takes braces if
an `if` inside it could catch the `else`, and nothing outside asks again. -/
def branch (p : Printed) : Printed := if p.openIf then ⟨p.braced.text, false⟩ else p

end Printed

namespace Node

/-- A block of one statement. -/
def isSingleBlock : Node → Bool
  | .node .block _ [_] => true
  | _ => false

/-- What needs a semicolon after it at the start of a `for` header. -/
def needsHeaderSemi : Node → Bool
  | .absent => true
  | .node (.assign _) _ _ | .node .comma _ _ | .node .conditional _ _ | .node .call _ _
  | .node (.unary _ _) _ _ => true
  | _ => false

/-- An increment before its operand. -/
def isIncrement : Node → Bool
  | .node (.unary op after) _ _ => op = "++" && !after
  | _ => false

/-- The text without the quotes `q` at both its ends. -/
def stripQuotes (q : Char) (s : List Char) : List Char :=
  ((s.dropWhile (· == q)).reverse.dropWhile (· == q)).reverse

/-- The name inside a string, if the string holds a name and nothing else. -/
def memberName? : Node → Option String
  | .node (.string text) _ _ =>
    let s := text.toList
    let inner := match s with
      | c :: _ => if c = '\'' || c = '"' then stripQuotes c s else s
      | [] => []
    let name := String.ofList inner
    if isIdentifier name then some name else none
  | _ => none

end Node

namespace Compact

/-- The compact form of a node, or the reason why it has none. -/
abbrev Out := Except TreeError Printed

/-- The form of an absent node. -/
def absent : Out := .ok (Node.placeholder .absent)

def present (parts : List (Part Out)) : Except TreeError (List Printed) :=
  (parts.filter (!·.node.isAbsent)).mapM (·.value)

def every (parts : List (Part Out)) : Except TreeError (List Printed) := parts.mapM (·.value)

def items (p : Part Out) : Except TreeError (List Printed) :=
  if p.node.isAbsent then .error .absentItems else p.items.mapM (·.2)

/-- The `case` clauses of a `switch`. -/
def cases (p : Part Out) : Except TreeError (List Printed) :=
  if p.node.isAbsent then .error .absentItems
  else p.items.mapM fun c => do Node.expectCase c.1; c.2

def optional (lead : String) (p : Part Out) : Out :=
  if p.node.isAbsent then .ok "" else return lead ++ (← p.value)

/-- The items of an array with commas after them, except the last; a hole is a comma of its own. -/
def arrayItems : List (Part Out) → Out
  | [] => .ok ""
  | p :: ps =>
    if p.node.isElision then return "," ++ (← arrayItems ps)
    else if ps.isEmpty then p.value
    else return (← p.value) ++ "," ++ (← arrayItems ps)

/-- How a binary operator is written between its operands: words between blanks, and a plus apart
from an increment after it. -/
def operator (op : String) (right : Node) : String :=
  if op = "instanceof" || op = "in" then " " ++ op ++ " "
  else if op = "+" && right.isIncrement then op ++ " "
  else op

/-- The form of a node, from those of its parts. -/
def node (k : Kind) (m : Mark) (parts : List (Part Out)) : Out :=
  let part := Algebra.part absent parts
  let value (i : Nat) : Out := (part i).value
  let joined (sep : String) (ps : Except TreeError (List Printed)) : Out := return .join sep (← ps)
  match k with
  | .plain => .ok (Node.placeholder (.node .plain m []))
  | .elision s => .ok (Node.placeholder (.node (.elision s) m []))
  | .program => joined "" (present parts)
  | .block => do
    match ← present parts with
    | [p] => return p
    | ps => return (Printed.join "" ps).braced
  | .varStatement => return "var " ++ (← joined "," (present parts)) ++ ";"
  | .varDecl => return (← value 0) ++ (← optional "=" (part 1))
  | .identifier s | .number s | .boolean s | .string s | .emptyStmt s => .ok s
  | .null _ => .ok "null"
  | .this => .ok "this"
  | .regex s => .ok (.parensIf m s)
  | .array => return "[" ++ (← arrayItems parts) ++ "]"
  | .object => return (← joined "," (every parts)).braced
  | .getter =>
    return .parensIf m ("get " ++ (← value 0) ++ "()" ++ (← joined "" (items (part 1))).braced)
  | .setter => do
    if (part 1).node.isAbsent then throw .absentLength
    if (part 1).items.length > 1 then throw .setterArity
    return .parensIf m ("set " ++ (← value 0) ++ (← joined "" (items (part 1))).inParens
      ++ (← joined "" (items (part 2))).braced)
  | .newExpr => return "new " ++ (← value 0) ++ (← joined "," (items (part 1))).inParens
  | .call => return .parensIf m ((← value 0) ++ (← joined "," (every (parts.drop 1))).inParens)
  | .bracket => do
    match Node.memberName? (part 1).node with
    | some name => return (← value 0) ++ "." ++ name
    | none => return (← value 0) ++ "[" ++ (← value 1) ++ "]"
  | .dot => return .parensIf m ((← value 0) ++ "." ++ (← value 1))
  | .assign op => return .parensIf m ((← value 0) ++ op ++ (← value 1))
  | .unary op after => do
    let p ← value 0
    return .parensIf m
      (if after then p ++ op else if Node.isWordOperator op then op ++ " " ++ p else op ++ p)
  | .binary op =>
    return .parensIf m ((← value 0) ++ operator op (part 1).node ++ (← value 1))
  | .conditional => return .parensIf m ((← value 0) ++ "?" ++ (← value 1) ++ ":" ++ (← value 2))
  | .comma => return .parensIf m ((← value 0) ++ "," ++ (← value 1))
  | .function form => do
    let body ← joined "" (items (part 2))
    let name ← match form with
      | .declared => ((" " : Printed) ++ ·) <$> value 0
      | .expression => optional " " (part 0)
    let p := "function" ++ name ++ (← joined "," (items (part 1))).inParens ++ body.braced
    return match form with
      | .declared => p
      | .expression => .parensIf m p
  | .exprStmt => return (← value 0) ++ ";"
  | .ifStmt => do
    let test ← optional "" (part 0)
    let yes ← value 1
    if (part 2).node.isAbsent then return ⟨"if(" ++ test.text ++ ")" ++ yes.text, true⟩
    let yes := if (part 1).node.isSingleBlock then yes.branch else yes
    return "if" ++ test.inParens ++ yes ++ .afterWord "else" (← value 2)
  | .doWhile => do
    let body ← value 1
    return .afterWord "do" body ++ "while" ++ (← value 0).inParens ++ ";"
  | .whileStmt => return "while" ++ (← value 0).inParens ++ (← value 1)
  | .forStmt => do
    let init ← optional "" (part 0)
    let semi := if (part 0).node.needsHeaderSemi then ";" else ""
    let header := init ++ semi ++ (← optional "" (part 1)) ++ ";" ++ (← optional "" (part 2))
    return "for" ++ header.inParens ++ (← value 3)
  | .forIn => do
    let item ← value 0
    let item := if (part 0).node.isVarDecl then "var " ++ item else item
    return "for" ++ (item ++ " in " ++ (← value 1)).inParens ++ (← value 2)
  | .continueStmt =>
    if (part 0).node.isAbsent then .ok "continue;"
    else return "continue " ++ (← (part 0).node.word) ++ ";"
  | .breakStmt =>
    if (part 0).node.isAbsent then .ok "break;"
    else return "break " ++ (← (part 0).node.word) ++ ";"
  | .returnStmt =>
    if (part 0).node.isAbsent then .ok "return;"
    else return .afterWord "return" (← value 0) ++ ";"
  | .withStmt => return "with" ++ (← value 0).inParens ++ (← value 1)
  | .label => return (← value 0) ++ ":" ++ (← value 1)
  | .throwStmt => return "throw " ++ (← value 0) ++ ";"
  | .switchStmt => do
    let value ← value 0
    let clauses ← joined "" (cases (part 1))
    if (part 2).node.isAbsent then return "switch" ++ value.inParens ++ clauses.braced
    Node.expectDefault (part 2).node
    return "switch" ++ value.inParens ++ (clauses ++ (← (part 2).value)).braced
  | .caseClause => return "case " ++ (← value 0) ++ ":" ++ (← joined "" (every (parts.drop 1)))
  | .defaultClause => return "default:" ++ (← joined "" (every parts))
  | .tryStmt =>
    return "try" ++ (← value 0).bracedOnce ++ (← optional "" (part 1)) ++ (← optional "" (part 2))
  | .catchClause => return "catch" ++ (← value 0).inParens ++ (← value 1).bracedOnce
  | .finallyClause => return "finally" ++ (← value 0).bracedOnce
  | .debugger s => .ok (s ++ ";")

def algebra : Algebra Out where
  absent := absent
  seq := fun ns => .ok (Node.placeholder (.seq (ns.map (·.1))))
  node := node

end Compact

/-- The compact form of a tree. -/
def Node.compact (n : Node) : Except TreeError String :=
  return (← n.fold Compact.algebra).text

end JsMinify
