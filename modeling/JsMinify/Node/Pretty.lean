import JsMinify.Node.Fold

/-!
# The laid out form of a tree

`Node.pretty` prints a tree with one statement a line and two blanks for each level of nesting.
`Pretty.Style` holds the one choice there is: whether an expression used as a statement ends with a
semicolon.
-/

namespace JsMinify

namespace Pretty

/-- The choices of the layout. -/
structure Style where
  /-- An expression statement ends with a semicolon. -/
  exprSemi : Bool := true

/-- The form of a node at a given indentation, or the reason why it has none. -/
abbrev Out := Nat → Except TreeError String

def absent : Out := fun _ => .ok (Node.placeholder .absent)

def indent (n : Nat) : String := String.ofList (List.replicate n ' ')

/-- Forms on lines of their own. -/
def lines (n : Nat) (sep : String) (outs : List Out) : Except TreeError String :=
  return sep.intercalate (← outs.mapM fun o => return indent n ++ (← o n))

/-- Forms on one line. -/
def inline (n : Nat) (sep : String) (outs : List Out) : Except TreeError String :=
  return sep.intercalate (← outs.mapM (· n))

def present (parts : List (Part Out)) : List Out :=
  (parts.filter (!·.node.isAbsent)).map (·.value)

def items (p : Part Out) : Except TreeError (List Out) :=
  if p.node.isAbsent then .error .absentItems else .ok (p.items.map (·.2))

/-- The `case` clauses of a `switch`, each after its indentation. -/
def cases (n : Nat) (p : Part Out) : Except TreeError String :=
  if p.node.isAbsent then .error .absentItems
  else return String.join (← p.items.mapM fun c => do
    Node.expectCase c.1
    return indent n ++ (← c.2 n))

def optional (lead : String) (n : Nat) (p : Part Out) : Except TreeError String :=
  if p.node.isAbsent then .ok "" else return lead ++ (← p.value n)

/-- The items of an array with commas after them, except the last; a hole is a comma of its own. -/
def arrayItems (n : Nat) : List (Part Out) → Except TreeError String
  | [] => .ok ""
  | p :: ps =>
    if p.node.isElision then return "," ++ (← arrayItems n ps)
    else if ps.isEmpty then p.value n
    else return (← p.value n) ++ "," ++ (← arrayItems n ps)

/-- What follows the first part of a `for` header. -/
def headerEnd (init : Node) : String :=
  match init with
  | .absent => " ; "
  | .node (.assign _) _ _ | .node .comma _ _ | .node .call _ _ | .node (.unary _ _) _ _ => "; "
  | _ => " "

def parensIf (m : Mark) (s : String) : String := if m.parens then "(" ++ s ++ ")" else s

/-- A body between braces, on lines of its own. -/
def body (n : Nat) (text : String) : String := "\x7b\n" ++ text ++ "\n" ++ indent n ++ "\x7d"

/-- The form of a node, from those of its parts. -/
def node (style : Style) (k : Kind) (m : Mark) (parts : List (Part Out)) : Out := fun n =>
  let part := Algebra.part absent parts
  let value (i : Nat) : Except TreeError String := (part i).value n
  match k with
  | .plain => .ok (Node.placeholder (.node .plain m []))
  | .elision s => .ok (Node.placeholder (.node (.elision s) m []))
  | .program => inline n "\n" (present parts)
  | .block => return body n (← lines (n + 2) "\n" (present parts))
  | .varStatement => return "var " ++ (← inline n ", " (present parts)) ++ ";"
  | .varDecl => return (← value 0) ++ (← optional " = " n (part 1))
  | .identifier s | .number s | .boolean s | .string s | .emptyStmt s => .ok s
  | .null _ => .ok "null"
  | .this => .ok "this"
  | .regex s => .ok (parensIf m s)
  | .array => return "[" ++ (← arrayItems n parts) ++ "]"
  | .object => do
    let props ← lines (n + 2) ",\n" (parts.map (·.value))
    return "\x7b\n" ++ props ++ (if parts.isEmpty then "" else "\n") ++ indent n ++ "\x7d"
  | .getter => do
    let text ← lines (n + 2) "\n" (← items (part 1))
    return parensIf m ("get " ++ (← value 0) ++ "() " ++ body n text)
  | .setter => do
    if (part 1).node.isAbsent then throw .absentLength
    if (part 1).items.length > 1 then throw .setterArity
    let params ← inline n "," (← items (part 1))
    let text ← lines (n + 2) "\n" (← items (part 2))
    return parensIf m ("set " ++ (← value 0) ++ "(" ++ params ++ ") " ++ body n text)
  | .newExpr => return "new " ++ (← value 0) ++ "(" ++ (← inline n ", " (← items (part 1))) ++ ")"
  | .call =>
    return (← value 0) ++ "(" ++ (← inline n ", " ((parts.drop 1).map (·.value))) ++ ")"
  | .bracket => return (← value 0) ++ "[" ++ (← value 1) ++ "]"
  | .dot => return parensIf m ((← value 0) ++ "." ++ (← value 1))
  | .assign op =>
    return parensIf m ((← value 0) ++ (if op = ":" then op else " " ++ op) ++ " " ++ (← value 1))
  | .unary op after => do
    let s ← value 0
    return parensIf m
      (if after then s ++ op else if Node.isWordOperator op then op ++ " " ++ s else op ++ s)
  | .binary op => return parensIf m ((← value 0) ++ " " ++ op ++ " " ++ (← value 1))
  | .conditional =>
    return parensIf m ((← value 0) ++ " ? " ++ (← value 1) ++ " : " ++ (← value 2))
  | .comma => return (← value 0) ++ ", " ++ (← value 1)
  | .function form => do
    let text ← lines (n + 2) "\n" (← items (part 2))
    let name ← match form with
      | .declared => (" " ++ ·) <$> value 0
      | .expression => optional " " n (part 0)
    let params ← inline n ", " (← items (part 1))
    let s := "function" ++ name ++ "(" ++ params ++ ") " ++ body n text
    return match form with
      | .declared => s
      | .expression => parensIf m s
  | .exprStmt => return (← value 0) ++ (if style.exprSemi then ";" else "")
  | .ifStmt =>
    return "if (" ++ (← optional "" n (part 0)) ++ ") " ++ (← value 1)
      ++ (← optional " else " n (part 2))
  | .doWhile => do
    let text ← value 1
    return "do " ++ text ++ " while (" ++ (← value 0) ++ ");"
  | .whileStmt => return "while (" ++ (← value 0) ++ ") " ++ (← value 1)
  | .forStmt =>
    return "for (" ++ (← optional "" n (part 0)) ++ headerEnd (part 0).node
      ++ (← optional "" n (part 1)) ++ "; " ++ (← optional "" n (part 2)) ++ ") " ++ (← value 3)
  | .forIn => do
    let item ← value 0
    let item := if (part 0).node.isVarDecl then "var " ++ item else item
    return "for (" ++ item ++ " in " ++ (← value 1) ++ ") " ++ (← value 2)
  | .continueStmt =>
    if (part 0).node.isAbsent then .ok "continue;"
    else return "continue " ++ (← (part 0).node.word) ++ ";"
  | .breakStmt =>
    if (part 0).node.isAbsent then .ok "break;"
    else return "break " ++ (← (part 0).node.word) ++ ";"
  | .returnStmt => return "return" ++ (← optional " " n (part 0)) ++ ";"
  | .withStmt => return "with (" ++ (← value 0) ++ ") " ++ (← value 1)
  | .label => return (← value 0) ++ ": " ++ (← value 1)
  | .throwStmt => return "throw " ++ (← value 0) ++ ";"
  | .switchStmt => do
    let head := "switch (" ++ (← value 0) ++ ") \x7b\n"
    let clauses ← cases (n + 2) (part 1)
    let last ← if (part 2).node.isAbsent then pure "" else do
      Node.expectDefault (part 2).node
      (part 2).value (n + 2)
    return head ++ clauses ++ last ++ indent n ++ "\x7d"
  | .caseClause => do
    let head := "case " ++ (← value 0) ++ ":\n"
    let text ← lines (n + 2) "\n" ((parts.drop 1).map (·.value))
    return head ++ (if text.isEmpty then "" else text ++ "\n")
  | .defaultClause =>
    return indent n ++ "default:\n" ++ (← lines (n + 2) "\n" (parts.map (·.value))) ++ "\n"
  | .tryStmt =>
    return "try " ++ (← value 0) ++ (← optional " " n (part 1)) ++ (← optional " " n (part 2))
  | .catchClause => return "catch (" ++ (← value 0) ++ ") " ++ (← value 1)
  | .finallyClause => return "finally " ++ (← value 0)
  | .debugger s => .ok (s ++ ";")

def algebra (style : Style) : Algebra Out where
  absent := absent
  seq := fun ns _ => .ok (Node.placeholder (.seq (ns.map (·.1))))
  node := node style

end Pretty

/-- The laid out form of a tree. -/
def Node.pretty (style : Pretty.Style) (n : Node) : Except TreeError String :=
  n.fold (Pretty.algebra style) 0

end JsMinify
