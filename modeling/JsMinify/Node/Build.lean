import JsMinify.Node

/-!
# Nodes from fields

A node can be given by its kind and its fields: one value for each thing that the kind has, where a
value may be a node, a sequence, or nothing. `Node.ofFields` puts the fields into parts, takes a
missing list for an empty one, and opens declared names to renaming; `Node.fields` is the way back.
-/

namespace JsMinify

/-- A node cannot be made: something other than a node stands where a name is declared. -/
structure BuildError where
  /-- What stands there. -/
  sort : String
  deriving DecidableEq, Repr

def BuildError.message (e : BuildError) : String :=
  "'" ++ e.sort ++ "' object has no attribute '_mangle_candidate'"

namespace Node

/-- A declared name, open to renaming. -/
def declared : Node → Except BuildError Node
  | .node k m ps => .ok (asCandidate (.node k m ps))
  | n => .error ⟨n.sort⟩

/-- A declared name that may be left out. -/
def declared? : Node → Except BuildError Node
  | .absent => .ok .absent
  | n => n.declared

/-- The parts of a node with given fields. -/
def partsOfFields (k : Kind) (fields : List Node) : Except BuildError (List Node) :=
  let field (i : Nat) : Node := fields.getD i .absent
  match k with
  | .plain | .program | .block | .varStatement | .array | .object | .defaultClause =>
    .ok (field 0).items
  | .call | .caseClause => .ok (field 0 :: (field 1).items)
  | .newExpr => .ok [field 0, .seq (field 1).items]
  | .varDecl | .catchClause => return [← (field 0).declared, field 1]
  | .function _ => do
    let name ← (field 0).declared?
    let params ← (field 1).items.mapM declared
    return [name, .seq params, .seq (field 2).items]
  | _ => .ok fields

/-- The node of a kind with given fields. -/
def ofFields (k : Kind) (m : Mark) (fields : List Node) : Except BuildError Node :=
  return .node k m (← partsOfFields k fields)

/-- The fields of a node of a kind with given parts. -/
def fieldsOfParts (k : Kind) (parts : List Node) : List Node :=
  match k with
  | .plain | .program | .block | .varStatement | .array | .object | .defaultClause => [.seq parts]
  | .call | .caseClause => [parts.headD .absent, .seq parts.tail]
  | _ => parts

end Node

end JsMinify
