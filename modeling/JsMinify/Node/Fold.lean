import JsMinify.Node

/-!
# Folding a tree

A tree is turned into a value from its leaves up. An `Algebra` says what an absent part, a sequence
and a node amount to, given what their parts amount to; `Node.fold` applies it. Printing and walking
a tree are folds, so each is one function without recursion of its own.
-/

namespace JsMinify

/-- A part of a node, with its value and, if it is a sequence, the values of its items. -/
structure Part (α : Type) where
  node : Node
  value : α
  items : List (Node × α)

/-- What an absent part, a sequence and a node amount to. -/
structure Algebra (α : Type) where
  absent : α
  seq : List (Node × α) → α
  node : Kind → Mark → List (Part α) → α

/-- A node without a part that is asked for is taken to have an absent one. -/
def Algebra.part {α : Type} (absent : α) (parts : List (Part α)) (i : Nat) : Part α :=
  parts.getD i ⟨.absent, absent, []⟩

namespace Node

variable {α : Type}

mutual
/-- The value of a tree. -/
def fold (a : Algebra α) : Node → α
  | .absent => a.absent
  | .seq ns => a.seq (foldItems a ns)
  | .node k m parts => a.node k m (foldParts a parts)

/-- The values of the items of a sequence. -/
def foldItems (a : Algebra α) : List Node → List (Node × α)
  | [] => []
  | n :: ns => (n, fold a n) :: foldItems a ns

/-- The values of the parts of a node. -/
def foldParts (a : Algebra α) : List Node → List (Part α)
  | [] => []
  | .absent :: ns => ⟨.absent, a.absent, []⟩ :: foldParts a ns
  | .seq xs :: ns =>
    let items := foldItems a xs
    ⟨.seq xs, a.seq items, items⟩ :: foldParts a ns
  | .node k m parts :: ns => ⟨.node k m parts, a.node k m (foldParts a parts), []⟩ :: foldParts a ns
end

end Node

end JsMinify
