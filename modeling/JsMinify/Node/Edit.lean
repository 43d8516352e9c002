import JsMinify.Node.Walk
import JsMinify.Node.Compact
import JsMinify.Scope.Binding

/-!
# Editing a tree in place

An `Edit` holds a tree and knows which of its nodes are tied to the node above them. Nodes are told by
their number in the walk. `Edit.link` ties every node; `Edit.replace` puts a new node in the place of
a tied one. The new node is not tied before the next `link`, unless it is tied by itself (`Edit.tie`).
The place of the old node is looked for in the public fields of the node above (`Kind.fields`). Where
it is not found, replacing changes nothing.
-/

namespace JsMinify

namespace Kind

/-- The names of the fields that hold the parts of a node, in their order. The last field is a list if it holds more. -/
def fields : Kind → List String
  | .plain | .program | .block | .varStatement => ["_children_list"]
  | .array => ["items"]
  | .object => ["properties"]
  | .newExpr | .call => ["identifier", "args"]
  | .bracket => ["node", "expr"]
  | .dot => ["node", "identifier"]
  | .assign _ | .binary _ | .comma => ["left", "right"]
  | .getter => ["prop_name", "elements"]
  | .setter => ["prop_name", "parameters", "elements"]
  | .varDecl => ["identifier", "initializer"]
  | .unary _ _ => ["value"]
  | .conditional | .ifStmt => ["predicate", "consequent", "alternative"]
  | .doWhile | .whileStmt => ["predicate", "statement"]
  | .forStmt => ["init", "cond", "count", "statement"]
  | .forIn => ["item", "iterable", "statement"]
  | .continueStmt | .breakStmt => ["identifier"]
  | .returnStmt | .throwStmt | .exprStmt => ["expr"]
  | .withStmt => ["expr", "statement"]
  | .switchStmt => ["expr", "cases", "default"]
  | .caseClause => ["expr", "elements"]
  | .defaultClause | .finallyClause => ["elements"]
  | .label => ["identifier", "statement"]
  | .tryStmt => ["statements", "catch", "fin"]
  | .catchClause => ["identifier", "elements"]
  | .function _ => ["identifier", "parameters", "elements"]
  | _ => []

/-- The search through the public fields of a node finds what stands at a place below it: a part, or an item of one. -/
def finds (k : Kind) : Path → Bool
  | [i] | [i, _] => (k.fields[i]?.or k.fields.getLast?).any (·.toList.head? != some '_')
  | _ => false

end Kind

/-- Why an edit is refused. -/
inductive EditError where
  /-- The tree cannot be walked or printed. -/
  | tree (e : TreeError)
  /-- The node is not tied to the one above it. -/
  | unlinked
  /-- No node has this number. -/
  | noSuchNode
  deriving DecidableEq, Repr

def EditError.message : EditError → String
  | .tree e => e.message
  | .unlinked => "Can't do replacement without parent"
  | .noSuchNode => "list index out of range"

/-- A tree that is being edited. -/
structure Edit where
  tree : Node
  /-- Where nodes that are not tied have been put since everything was tied; `none` before that. -/
  loose : Option (List Path) := none

namespace Edit

/-- The nodes of the tree in the order of the walk. -/
def nodes (e : Edit) : Except EditError (List (Path × Node)) :=
  match e.tree.walk with
  | .ok ns => .ok ns
  | .error err => .error (.tree err)

def node (e : Edit) (i : Nat) : Except EditError (Path × Node) := do
  match (← e.nodes)[i]? with
  | some n => return n
  | none => throw .noSuchNode

/-- Ties every node to the one above it. -/
def link (e : Edit) : Except EditError Edit := do
  let _ ← e.nodes
  return { e with loose := some [] }

/-- The node at the end of a path is tied. -/
def isLinked (e : Edit) (p : Path) : Bool :=
  match e.loose with
  | none => false
  | some ps => !ps.any (·.isPrefixOf p)

/-- The kind of the node that holds the end of a path, directly or in a sequence, and the rest of the path from there. -/
def holder? (tree : Node) (p : Path) : Option (Kind × Path) :=
  let above := p.dropLast
  match tree.at? above with
  | some (.node k _ _) => some (k, p.drop above.length)
  | some (.seq _) =>
    match tree.at? above.dropLast with
    | some (.node k _ _) => some (k, p.drop above.dropLast.length)
    | _ => none
  | _ => none

/-- The search for the end of a path through the node that holds it comes to a result. -/
def isFound (tree : Node) (p : Path) : Bool := (holder? tree p).any fun (k, place) => k.finds place

/-- Puts a node in the place of another one, which stands at the end of a path. -/
def put (e : Edit) (p : Path) (old new : Node) : Except EditError Edit := do
  match old with
  | .node _ _ _ =>
    if !e.isLinked p then throw .unlinked
    if isFound e.tree p then
      return { tree := .replaceAt new e.tree p, loose := e.loose.map (p :: ·) }
    else return e
  | n => throw (.tree (.noPart n.sort "replace_self"))

/-- Puts a node in the place of the one with a number. -/
def replace (e : Edit) (i : Nat) (new : Node) : Except EditError Edit := do
  let (p, old) ← e.node i
  e.put p old new

/-- Ties the node that was put at the end of a path. The nodes below it are not tied. -/
def tie (e : Edit) (p : Path) : Edit :=
  let below := match e.tree.at? p with
    | some (.node _ _ parts) => (List.range parts.length).map fun i => p ++ [i]
    | _ => []
  { e with loose := e.loose.map (·.flatMap fun q => if q = p then below else [q]) }

/-- Gives a name another one wherever it occurs. -/
def rename (e : Edit) (old new : String) : Except EditError Edit := do
  let _ ← e.nodes
  return { e with tree := e.tree.rename fun name _ => if name = old then new else name }

/-- Shortens the names of the tree. -/
def mangle (e : Edit) (toplevel : Bool) : Except EditError Edit :=
  match e.tree.mangle toplevel with
  | .ok tree => .ok { e with tree }
  | .error err => .error (.tree err)

end Edit

end JsMinify
