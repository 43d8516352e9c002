import JsMinify.Node.Walk
import JsMinify.Node.Compact

/-!
# Watching for sorts of nodes

`Node.observe` goes through a tree and prints each node of the sorts it watches for. It goes below such
a node only if asked to.
-/

namespace JsMinify.Node

/-- The nodes of the watched sorts, each with its compact form, in the order of the text. The first
node that cannot be printed or passed stops it. -/
def observe (sorts : List String) (descend : Bool) (tree : Node) :
    Except TreeError (List (String × String)) := do
  let watched (n : Node) : Bool := sorts.contains n.sort
  let enter (n : Node) : Bool := descend || !watched n
  let below := if enter tree then tree.trail enter else .nil
  let met := (tree :: below.seen.map (·.2)).filter watched
  let seen ← met.mapM fun n => return (n.sort, ← n.compact)
  match below.stop with
  | some e => throw e
  | none => return seen

end JsMinify.Node
