import JsMinify.Scope
import JsMinify.Node.Fold

/-!
# The scopes of a program

`Node.bind` finds the scopes of a tree: the outermost one and one for each function. It notes on every
name the scope in which it stands. Parameters, `var` declarations, `catch` names and function names
are defined in the scope where they stand; a function's own name belongs to the scope around it.
`Node.mangle` gives new names to the symbols and writes them into the tree.
-/

namespace JsMinify

namespace Binding

/-- The scopes found so far, and the current one. -/
structure Binder where
  scopes : Scopes
  current : Nat

/-- Finding the scopes of a part of a tree; gives the part with the scopes noted. -/
abbrev Bind := StateT Binder (Except TreeError)

/-- Defines a variable in the current scope. -/
def defineVar (name : String) : Bind Unit :=
  modify fun b => { b with scopes := b.scopes.define b.current name .variable }

/-- Defines a variable in the current scope unless the name is taken. -/
def defineNewVar (name : String) : Bind Unit := do
  let b ← get
  unless b.scopes.contains b.current name do defineVar name

/-- Notes the current scope on a node. -/
def note (n : Node) : Bind Node := do
  let b ← get
  return n.modifyMark fun m => { m with scope := some b.current }

/-- Makes the scope of a function. -/
def enter (name : Option String) : Bind Unit :=
  modify fun b =>
    let (f, scopes) := b.scopes.new .function name (some b.current)
    let scopes := match name with
      | some name => scopes.define b.current name (.function f)
      | none => scopes
    ⟨scopes, f⟩

def parameter (n : Node) : Bind Node := do
  defineVar (← n.word)
  note n

/-- The scopes of a node, from those of its parts. -/
def node (k : Kind) (m : Mark) (parts : List (Part (Bind Node))) : Bind Node := do
  let part := Algebra.part (pure .absent) parts
  match k with
  | .identifier _ => note (.node k m (parts.map (·.node)))
  | .varDecl =>
    defineNewVar (← (part 0).node.word)
    let name ← note (part 0).node
    return .node k m [name, ← (part 1).value]
  | .catchClause =>
    defineNewVar (← (part 0).node.word)
    let name ← note (part 0).node
    if (part 1).node.isAbsent then throw .absentItems
    return .node k m [name, ← (part 1).value]
  | .function _ =>
    let outer := (← get).current
    let name ← if (part 0).node.isAbsent then pure none else some <$> (part 0).node.word
    let ident ← note (part 0).node
    enter name
    let params ← (part 1).node.items.mapM parameter
    let body ← (part 2).items.mapM (·.2)
    modify fun b => { b with current := outer }
    return .node k m [ident, .seq params, .seq body]
  | .getter =>
    if (part 1).node.isAbsent then throw .absentBody
    return .node k m (← parts.mapM (·.value))
  | .setter =>
    if (part 2).node.isAbsent then throw .absentBody
    return .node k m (← parts.mapM (·.value))
  | .finallyClause =>
    if (part 0).node.isAbsent then throw .absentItems
    return .node k m (← parts.mapM (·.value))
  | _ => return .node k m (← parts.mapM (·.value))

def algebra : Algebra (Bind Node) where
  absent := pure .absent
  seq := fun ns => return .seq (← ns.mapM (·.2))
  node := node

/-- A name with the mark of its node. -/
abbrev Occurrence := String × Mark

/-- The names of trees, in the order of the text. -/
def occurrences : Algebra (List Occurrence) where
  absent := []
  seq := fun ns => ns.flatMap (·.2)
  node := fun k m parts =>
    match k with
    | .identifier name => [(name, m)]
    | _ => parts.flatMap (·.value)

/-- Trees with another name for each occurrence. -/
def renamed (f : String → Mark → String) : Algebra Node where
  absent := .absent
  seq := fun ns => .seq (ns.map (·.2))
  node := fun k m parts =>
    let parts := parts.map (·.value)
    match k with
    | .identifier name => .node (.identifier (f name m)) m parts
    | _ => .node k m parts

/-- Trees without notes on scopes. -/
def unnoted : Algebra Node where
  absent := .absent
  seq := fun ns => .seq (ns.map (·.2))
  node := fun k m parts => .node k { m with scope := none } (parts.map (·.value))

end Binding

namespace Node

/-- The names in a tree, in the order of the text. -/
def names (n : Node) : List Binding.Occurrence := n.fold Binding.occurrences

/-- The tree with another name for each occurrence. -/
def rename (f : String → Mark → String) (n : Node) : Node := n.fold (Binding.renamed f)

/-- The tree without notes on scopes. -/
def forgetScopes (n : Node) : Node := n.fold Binding.unnoted

/-- The tree with its scopes noted, and the scopes. -/
def bind (n : Node) : Except TreeError (Node × Scopes) := do
  let (outermost, scopes) := ({} : Scopes).new .outermost none none
  let (tree, b) ← (n.fold Binding.algebra).run ⟨scopes, outermost⟩
  return (tree, b.scopes)

end Node

namespace Scopes

/-- Notes the references of a tree: the names that stand as expressions. -/
def referAll (s : Scopes) (tree : Node) : Scopes :=
  tree.names.foldl
    (fun s (name, m) =>
      match m.scope with
      | some i => if m.inExpr then (s.refer i name).2 else s
      | none => s)
    s

/-- The new name of an occurrence of a name, or the name itself. -/
def newName (s : Scopes) (name : String) (m : Mark) : String :=
  match m.scope with
  | some i =>
    if m.candidate then
      (((s.definer i name).bind fun d => (s.get d).mangled.lookup name)).getD name
    else name
  | none => name

end Scopes

/-- The scopes of a tree with new names given to their symbols, and the tree with the new names
written into it. -/
def Node.mangleWithScopes (toplevel : Bool) (n : Node) : Except TreeError (Node × Scopes) := do
  let (tree, scopes) ← n.bind
  match (scopes.referAll tree).mangleTree 0 toplevel with
  | none => throw .noNameLeft
  | some scopes => return ((tree.rename scopes.newName).forgetScopes, scopes)

/-- The tree with shorter names; those of the outermost scope change only if `toplevel`. -/
def Node.mangle (toplevel : Bool) (n : Node) : Except TreeError Node :=
  return (← n.mangleWithScopes toplevel).1

end JsMinify
