import JsMinify.Parser
import JsMinify.Node.Compact
import JsMinify.Node.Pretty
import JsMinify.Scope.Binding

/-!
# From text to text

`minify` parses a program and prints it in its compact form, with shorter names if asked for.
`reformat` lays it out instead. Both report the illegal characters that were skipped.
-/

namespace JsMinify

/-- Why a program was not processed. -/
inductive Error where
  | parse (e : ParseError)
  | tree (e : TreeError)
  deriving DecidableEq, Repr

def Error.message : Error → String
  | .parse e => e.message
  | .tree e => e.message

/-- A result, and the illegal characters met on the way to it. -/
structure Report (α : Type) where
  result : Except Error α
  illegal : List IllegalChar

/-- Parses a text and goes on with its tree. -/
def withTree {α : Type} (text : String) (f : Node → Except TreeError α) : Report α :=
  let (r, p) := parse text
  ⟨match r with
    | .error e => .error (.parse e)
    | .ok tree =>
      match f tree with
      | .error e => .error (.tree e)
      | .ok a => .ok a,
    p.lexer.illegal⟩

/-- What to do with names. -/
structure Options where
  /-- Shorten names. -/
  mangle : Bool := false
  /-- Shorten the names of the outermost scope too. -/
  toplevel : Bool := false
  deriving DecidableEq, Repr

/-- The compact form of a tree, with its names shortened if asked for. -/
def Node.minify (options : Options) (tree : Node) : Except TreeError String := do
  if options.mangle then (← tree.mangle options.toplevel).compact else tree.compact

def minify (options : Options) (text : String) : Report String :=
  withTree text (Node.minify options)

def reformat (style : Pretty.Style) (text : String) : Report String :=
  withTree text (Node.pretty style)

end JsMinify
