import JsMinify.Node.Fold

/-!
# Walking a tree

`Node.trail` lists the nodes below a node in the order of the text, each before what is below it,
with the path that leads to it. Sequences of parts are passed through, except the arguments of a
`newExpr`, which count as an item of their own. The block of a `finallyClause` is passed through too.
A tree with an absent part where items are looked for stops the walk; what was seen before stays
known.
-/

namespace JsMinify

/-- The way from a node down to another one, by numbers of parts and of items. -/
abbrev Path := List Nat

/-- What a walk met, and the error that stopped it, if any. -/
structure Trail where
  seen : List (Path × Node)
  stop : Option TreeError := none

namespace Trail

def nil : Trail := ⟨[], none⟩

/-- A walk stopped at once. -/
def fail (e : TreeError) : Trail := ⟨[], some e⟩

/-- One walk after another; the second does not start if the first was stopped. -/
def append (a b : Trail) : Trail :=
  if a.stop.isSome then a else ⟨a.seen ++ b.seen, b.stop⟩

instance : Append Trail := ⟨append⟩

/-- All that was met, if nothing stopped the walk. -/
def toExcept (t : Trail) : Except TreeError (List (Path × Node)) :=
  match t.stop with
  | some e => .error e
  | none => .ok t.seen

end Trail

namespace Walk

/-- A walk below a node that stands at the end of a path. -/
abbrev Out := Path → Trail

/-- A node at the end of a path, with what lies below it if the walk goes there. -/
def visit (enter : Node → Bool) (p : Path) (n : Node) (below : Out) : Trail :=
  ⟨[(p, n)], none⟩ ++ (if enter n then below p else .nil)

/-- The nodes of a list from number `i` on, absent ones left out. -/
def present (enter : Node → Bool) (p : Path) (i : Nat) : List (Node × Out) → Trail
  | [] => .nil
  | (n, below) :: rest =>
    (if n.isAbsent then .nil else visit enter (p ++ [i]) n below) ++ present enter p (i + 1) rest

/-- The nodes of a list from number `i` on. An absent one is met too, and stops the walk. -/
def every (enter : Node → Bool) (p : Path) (i : Nat) : List (Node × Out) → Trail
  | [] => .nil
  | (n, below) :: rest => visit enter (p ++ [i]) n below ++ every enter p (i + 1) rest

/-- The walk below a node, from those below its parts. -/
def node (enter : Node → Bool) (k : Kind) (parts : List (Part Out)) : Out := fun p =>
  let part := Algebra.part (fun _ => .fail .absentItems) parts
  let one (i : Nat) : Trail := present enter p i [((part i).node, (part i).value)]
  let list (i : Nat) : Trail := present enter (p ++ [i]) 0 (part i).items
  match k with
  | .getter => if (part 1).node.isAbsent then .fail .absentBody else one 0 ++ list 1
  | .setter => if (part 2).node.isAbsent then .fail .absentBody else one 0 ++ list 1 ++ list 2
  | .function _ => one 0 ++ list 1 ++ list 2
  | .switchStmt => one 0 ++ list 1 ++ one 2
  | .finallyClause =>
    match (part 0).node with
    | .seq _ => list 0
    | _ => (part 0).value (p ++ [0])
  | _ => present enter p 0 (parts.map fun q => (q.node, q.value))

/-- Walks that go below the nodes in `enter` only. -/
def algebra (enter : Node → Bool) : Algebra Out where
  absent := fun _ => .fail .absentItems
  seq := fun ns p => every enter p 0 ns
  node := fun k _ parts => node enter k parts

end Walk

namespace Node

/-- What lies below a node, for a walk that goes below the nodes in `enter` only. -/
def trail (enter : Node → Bool) (n : Node) : Trail := n.fold (Walk.algebra enter) []

/-- Every node below a node, with its path. -/
def walk (n : Node) : Except TreeError (List (Path × Node)) := (n.trail fun _ => true).toExcept

/-- The node at the end of a path. -/
def at? : Node → Path → Option Node
  | n, [] => some n
  | .seq ns, i :: p => ns[i]?.bind fun n => n.at? p
  | .node _ _ parts, i :: p => parts[i]?.bind fun n => n.at? p
  | .absent, _ :: _ => none

/-- The tree with the node at the end of a path replaced. A path that leads nowhere changes
nothing. -/
def replaceAt (new : Node) : Node → Path → Node
  | _, [] => new
  | .seq ns, i :: p => .seq (ns.modify i fun n => replaceAt new n p)
  | .node k m parts, i :: p => .node k m (parts.modify i fun n => replaceAt new n p)
  | .absent, _ :: _ => .absent

end Node

end JsMinify
