/-!
# Syntax trees

A node has a kind, a mark and parts. The kind says what the node is and holds its own words (a name,
an operator, the text of a literal); the mark holds what was noted about it; the parts are the nodes
below it. A part may be left out (`Node.absent`) or be a sequence of nodes (`Node.seq`).

The parts of each kind, in order:

* `plain`, `program`, `block`, `varStatement`, `array`, `object`, `defaultClause`: their items;
* `call`: the function, then the arguments; `caseClause`: the value, then the statements;
* `newExpr`: the class and the sequence of arguments;
* `function`: the name, the sequence of parameters and the sequence of statements;
* `getter`: the property and the sequence of statements; `setter` has the sequence of parameters
  between them. An accessor without statements has `absent` in their place;
* `switchStmt`: the value, the sequence of `case` clauses and the `default` clause;
* the others have one part for each operand, clause or statement, in the order of their text, except
  that `doWhile` names its condition first.
-/

namespace JsMinify

/-- What was noted about a node. -/
structure Mark where
  /-- The line, `-1` if unknown. -/
  line : Int := -1
  /-- The node stood between parentheses. -/
  parens : Bool := false
  /-- The node is a name that renaming may replace. -/
  candidate : Bool := false
  /-- The node is a name that stands as an expression. -/
  inExpr : Bool := false
  /-- The scope in which the node was met, if that was looked up. -/
  scope : Option Nat := none
  deriving DecidableEq, Repr, Inhabited

/-- A function is declared by a statement or made by an expression. -/
inductive FunctionForm where
  | declared
  | expression
  deriving DecidableEq, Repr

/-- What a node is. -/
inductive Kind where
  | plain | program | block | varStatement | varDecl
  | identifier (name : String) | number (text : String) | string (text : String)
  | regex (text : String) | boolean (text : String) | null (text : String) | this
  | array | elision (text : String) | object | getter | setter
  | newExpr | call | bracket | dot
  | assign (op : String) | unary (op : String) (after : Bool) | binary (op : String)
  | conditional | comma | function (form : FunctionForm)
  | emptyStmt (text : String) | exprStmt | ifStmt | doWhile | whileStmt | forStmt | forIn
  | continueStmt | breakStmt | returnStmt | withStmt
  | switchStmt | caseClause | defaultClause | label | throwStmt
  | tryStmt | catchClause | finallyClause | debugger (text : String)
  deriving DecidableEq, Repr

/-- A node of a syntax tree, a sequence of nodes, or nothing where a node may stand. -/
inductive Node where
  | absent
  | seq (items : List Node)
  | node (kind : Kind) (mark : Mark) (parts : List Node)
  deriving Repr, Inhabited

/-- Why a tree cannot be walked, printed or analysed. -/
inductive TreeError where
  /-- Something absent stands where items are looked for. -/
  | absentItems
  /-- The statements of an accessor are absent where its parts are listed. -/
  | absentBody
  /-- A sequence is absent where its length is asked for. -/
  | absentLength
  /-- A setter has more than one parameter. -/
  | setterArity
  /-- A node of this sort lacks a part that is asked for. -/
  | noPart (sort part : String)
  /-- A scope has more symbols than there are short names. -/
  | noNameLeft
  deriving DecidableEq, Repr

def TreeError.message : TreeError → String
  | .absentItems => "'NoneType' object is not iterable"
  | .absentBody => "can only concatenate list (not \"NoneType\") to list"
  | .absentLength => "object of type 'NoneType' has no len()"
  | .setterArity => "Setter functions must have one argument: <SetPropAssign>"
  | .noPart sort part => "'" ++ sort ++ "' object has no attribute '" ++ part ++ "'"
  | .noNameLeft => ""

def Kind.name : Kind → String
  | .plain => "Node"
  | .program => "Program"
  | .block => "Block"
  | .varStatement => "VarStatement"
  | .varDecl => "VarDecl"
  | .identifier _ => "Identifier"
  | .number _ => "Number"
  | .string _ => "String"
  | .regex _ => "Regex"
  | .boolean _ => "Boolean"
  | .null _ => "Null"
  | .this => "This"
  | .array => "Array"
  | .elision _ => "Elision"
  | .object => "Object"
  | .getter => "GetPropAssign"
  | .setter => "SetPropAssign"
  | .newExpr => "NewExpr"
  | .call => "FunctionCall"
  | .bracket => "BracketAccessor"
  | .dot => "DotAccessor"
  | .assign _ => "Assign"
  | .unary _ _ => "UnaryOp"
  | .binary _ => "BinOp"
  | .conditional => "Conditional"
  | .comma => "Comma"
  | .function .declared => "FuncDecl"
  | .function .expression => "FuncExpr"
  | .emptyStmt _ => "EmptyStatement"
  | .exprStmt => "ExprStatement"
  | .ifStmt => "If"
  | .doWhile => "DoWhile"
  | .whileStmt => "While"
  | .forStmt => "For"
  | .forIn => "ForIn"
  | .continueStmt => "Continue"
  | .breakStmt => "Break"
  | .returnStmt => "Return"
  | .withStmt => "With"
  | .switchStmt => "Switch"
  | .caseClause => "Case"
  | .defaultClause => "Default"
  | .label => "Label"
  | .throwStmt => "Throw"
  | .tryStmt => "Try"
  | .catchClause => "Catch"
  | .finallyClause => "Finally"
  | .debugger _ => "Debugger"

/-- The text of a kind that is a word of its own. -/
def Kind.text? : Kind → Option String
  | .identifier s | .number s | .string s | .regex s | .boolean s | .null s | .elision s
  | .emptyStmt s | .debugger s => some s
  | _ => none

namespace Node

/-- The name of what stands here. -/
def sort : Node → String
  | .absent => "NoneType"
  | .seq _ => "list"
  | .node k _ _ => k.name

def isAbsent : Node → Bool
  | .absent => true
  | _ => false

/-- The items of a sequence; none of anything else. -/
def items : Node → List Node
  | .seq ns => ns
  | _ => []

def text? : Node → Option String
  | .node k _ _ => k.text?
  | _ => none

def modifyMark (f : Mark → Mark) : Node → Node
  | .node k m ps => .node k (f m) ps
  | n => n

/-- The same node between parentheses. -/
def inParens : Node → Node := modifyMark fun m => { m with parens := true }

/-- The same node, open to renaming. -/
def asCandidate : Node → Node := modifyMark fun m => { m with candidate := true }

mutual
/-- A short form of a node that shows only what it is. -/
def brief : Node → String
  | .absent => "None"
  | .seq ns => "[" ++ ", ".intercalate (briefs ns) ++ "]"
  | .node k _ _ => "<" ++ k.name ++ ">"

/-- The short forms of several nodes. -/
def briefs : List Node → List String
  | [] => []
  | n :: ns => brief n :: briefs ns
end

/-- The word a node holds. What is asked of a name is asked of any node here: an operator application
answers with its operand, and a node without a word fails. -/
def word : Node → Except TreeError String
  | .node (.unary _ _) _ [operand] => .ok operand.brief
  | n =>
    match n.text? with
    | some s => .ok s
    | none => .error (.noPart n.sort "value")

def isVarDecl : Node → Bool
  | .node .varDecl _ _ => true
  | _ => false

/-- A hole in an array. -/
def isElision : Node → Bool
  | .node (.elision _) _ _ => true
  | _ => false

/-- Operators that are words and stand before their operand. -/
def isWordOperator (op : String) : Bool := ["delete", "void", "typeof"].contains op

/-- What stands for a node that has no form of its own. -/
def placeholder (n : Node) : String := "GEN: " ++ n.brief

/-- A clause of a `switch` has to be a `case`. -/
def expectCase : Node → Except TreeError Unit
  | .node .caseClause _ _ => .ok ()
  | n => .error (.noPart n.sort "expr")

/-- The last clause of a `switch` has to be a `default`. -/
def expectDefault : Node → Except TreeError Unit
  | .node .defaultClause _ _ => .ok ()
  | n => .error (.noPart n.sort "elements")

end Node

end JsMinify
