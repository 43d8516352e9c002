import JsMinify.Token
import JsMinify.Node

/-!
# Building nodes while parsing

A rule of the grammar carries an `Action` that says what to build from the values of the symbols on
its right side. Positions count these symbols from 0. Most actions are templates: a kind of node, the
position whose line the node takes, and `Slot`s that say which values become its parts.
-/

namespace JsMinify

namespace Grammar

/-- What a symbol stands for: the token itself, or the tree built for a nonterminal. -/
inductive Value where
  | token (t : Token)
  | node (n : Node)
  deriving Repr

/-- A value and the line of the symbol. -/
structure Item where
  value : Value
  line : Nat
  deriving Repr

/-- Kinds of nodes made from the text of one token. -/
inductive LeafForm where
  | boolean | null | number | string | regex | identifier | elision | emptyStmt | debugger
  deriving DecidableEq, Repr

def LeafForm.kind : LeafForm → String → Kind
  | .boolean => .boolean
  | .null => .null
  | .number => .number
  | .string => .string
  | .regex => .regex
  | .identifier => .identifier
  | .elision => .elision
  | .emptyStmt => .emptyStmt
  | .debugger => .debugger

/-- Kinds of nodes that hold an operator. -/
inductive OperatorForm where
  | assign | binary | unaryBefore | unaryAfter
  deriving DecidableEq, Repr

def OperatorForm.kind : OperatorForm → String → Kind
  | .assign => .assign
  | .binary => .binary
  | .unaryBefore => (.unary · false)
  | .unaryAfter => (.unary · true)

/-- Where the parts of a new node come from. -/
inductive Slot where
  /-- Nothing. -/
  | nothing
  /-- The node at a position. -/
  | part (i : Nat)
  /-- The node at a position, open to renaming. -/
  | name (i : Nat)
  /-- The items at a position, one after another. -/
  | items (i : Nat)
  /-- One sequence of the items at some positions. -/
  | list (is : List Nat)
  /-- One sequence of the items at a position, open to renaming. -/
  | names (i : Nat)
  /-- A leaf from the token at a position. -/
  | leaf (form : LeafForm) (i : Nat)
  /-- A declaration of the name at a position. -/
  | decl (i : Nat)
  /-- A declaration of the name at a position, with the value at another. -/
  | declInit (i j : Nat)
  /-- A `var` statement with the declarations at a position. -/
  | vars (i : Nat)
  deriving DecidableEq, Repr

/-- What a rule builds. -/
inductive Action where
  /-- The value at a position. -/
  | pass (i : Nat)
  /-- Nothing. -/
  | absent
  /-- A sequence. -/
  | seq (slots : List Slot)
  /-- What a slot gives. -/
  | slot (s : Slot)
  /-- A node with the line of a position. -/
  | make (kind : Kind) (line : Nat) (slots : List Slot)
  /-- A node whose operator is the token at a position; it has the line of the first symbol. -/
  | operator (form : OperatorForm) (op : Nat) (slots : List Slot)
  /-- The name at position 0, as an expression. -/
  | nameExpr
  /-- The expression at position 1, between parentheses. -/
  | parens
  deriving DecidableEq, Repr

def arg (args : List Item) (i : Nat) : Item := args.getD i ⟨.node .absent, 0⟩

def nodeAt (args : List Item) (i : Nat) : Node :=
  match (arg args i).value with
  | .node n => n
  | .token _ => .absent

def textAt (args : List Item) (i : Nat) : String :=
  match (arg args i).value with
  | .token t => t.text
  | .node _ => ""

def markAt (args : List Item) (i : Nat) : Mark := { line := (arg args i).line }

/-- The nodes that a slot gives. -/
def Slot.fill (args : List Item) : Slot → List Node
  | .nothing => [.absent]
  | .part i => [nodeAt args i]
  | .name i => [(nodeAt args i).asCandidate]
  | .items i => (nodeAt args i).items
  | .list is => [.seq (is.flatMap fun i => (nodeAt args i).items)]
  | .names i => [.seq ((nodeAt args i).items.map Node.asCandidate)]
  | .leaf form i => [.node (form.kind (textAt args i)) (markAt args i) []]
  | .decl i => [.node .varDecl (markAt args i) [(nodeAt args i).asCandidate, .absent]]
  | .declInit i j => [.node .varDecl (markAt args i) [(nodeAt args i).asCandidate, nodeAt args j]]
  | .vars i => [.node .varStatement (markAt args i) (nodeAt args i).items]

/-- What an action builds from the items of a right side. -/
def Action.run (args : List Item) : Action → Value
  | .pass i => (arg args i).value
  | .absent => .node .absent
  | .seq slots => .node (.seq (slots.flatMap (Slot.fill args)))
  | .slot s => .node ((s.fill args).headD .absent)
  | .make kind line slots => .node (.node kind (markAt args line) (slots.flatMap (Slot.fill args)))
  | .operator form op slots =>
    .node (.node (form.kind (textAt args op)) (markAt args 0) (slots.flatMap (Slot.fill args)))
  | .nameExpr =>
    .node ((nodeAt args 0).modifyMark fun m => { m with candidate := true, inExpr := true })
  | .parens => .node (nodeAt args 1).inParens

end Grammar

end JsMinify
