import JsMinify.Scope.Names

/-!
# Scopes

A `Scopes` value holds the scopes of a program, numbered as they are made; every scope but the
outermost names the one around it. A scope holds the symbols defined in it, the names referred to from
inside it with the scope that defines each, and the new names given to its symbols. A function is both
a scope and a symbol.

`Scopes.nextName` is the next short name that a scope can give away without hiding a name that is
referred to from inside it, and `Scopes.mangleTree` gives new names to the symbols of a tree of scopes.
-/

namespace JsMinify

/-- Sets the value of a key. A key that is there keeps its place, a new one comes last. -/
def putKey {β : Type} (key : String) (value : β) : List (String × β) → List (String × β)
  | [] => [(key, value)]
  | (k, v) :: rest => if k = key then (k, value) :: rest else (k, v) :: putKey key value rest

/-- The sorts of scopes. -/
inductive ScopeKind where
  | plain | outermost | inner | function
  deriving DecidableEq, Repr

def ScopeKind.name : ScopeKind → String
  | .plain => "Scope"
  | .outermost => "GlobalScope"
  | .inner => "LocalScope"
  | .function => "FuncSymbol"

/-- What a name stands for: a variable, or a function, by the number of its scope. -/
inductive Symbol where
  | variable
  | function (scope : Nat)
  deriving DecidableEq, Repr

def Symbol.sort : Symbol → String
  | .variable => "VarSymbol"
  | .function _ => "FuncSymbol"

/-- A scope. -/
structure Scope where
  kind : ScopeKind := .plain
  /-- The name of a function. -/
  name : Option String := none
  /-- The scope around this one. -/
  parent : Option Nat := none
  /-- The names defined here, in the order of their first definition. -/
  symbols : List (String × Symbol) := []
  /-- The names referred to from here and from the scopes inside, with the scope that defines each. -/
  refs : List (String × Nat) := []
  /-- The new names of the symbols. -/
  mangled : List (String × String) := []
  /-- The symbols of the new names. -/
  unmangled : List (String × String) := []
  /-- The positions of the short name drawn last. -/
  drawn : List Nat := []
  /-- Where the function itself is defined. -/
  home : Option Nat := none
  deriving Repr

/-- Scopes by number. -/
structure Scopes where
  all : List Scope := []

/-- Why a reference cannot be noted. -/
inductive ScopeError where
  /-- The scope that defines the name is not around the reference. -/
  | homeless
  deriving DecidableEq, Repr

def ScopeError.message : ScopeError → String
  | .homeless => "'NoneType' object has no attribute 'refs'"

namespace Scopes

def get (s : Scopes) (i : Nat) : Scope := s.all.getD i {}

def modify (s : Scopes) (i : Nat) (f : Scope → Scope) : Scopes := ⟨s.all.modify i f⟩

def new (s : Scopes) (kind : ScopeKind) (name : Option String) (parent : Option Nat) :
    Nat × Scopes :=
  (s.all.length, ⟨s.all ++ [{ kind := kind, name := name, parent := parent }]⟩)

def chainFrom (s : Scopes) : Nat → Nat → List Nat
  | 0, _ => []
  | fuel + 1, i =>
    i :: match (s.get i).parent with
      | some p => chainFrom s fuel p
      | none => []

/-- A scope and those around it, the innermost first. A scope is made after the one around it, so
there are no more of them than scopes. -/
def chain (s : Scopes) (i : Nat) : List Nat := s.chainFrom s.all.length i

/-- The scopes around a scope, the innermost first. -/
def around (s : Scopes) (i : Nat) : List Nat := (s.chain i).drop 1

def children (s : Scopes) (i : Nat) : List Nat :=
  (List.range s.all.length).filter fun j => (s.get j).parent = some i

def contains (s : Scopes) (i : Nat) (name : String) : Bool :=
  ((s.get i).symbols.lookup name).isSome

def define (s : Scopes) (i : Nat) (name : String) (sym : Symbol) : Scopes :=
  let s := s.modify i fun c => { c with symbols := putKey name sym c.symbols }
  match sym with
  | .variable => s
  | .function f => s.modify f fun c => { c with home := some i }

/-- The symbol a name stands for in a scope, with the scope that holds it. -/
def resolve (s : Scopes) (i : Nat) (name : String) : Option (Nat × Symbol) :=
  (s.chain i).findSome? fun j => ((s.get j).symbols.lookup name).map fun sym => (j, sym)

/-- Where a symbol found in scope `i` was defined last. -/
def homeOf (s : Scopes) (i : Nat) : Symbol → Option Nat
  | .variable => some i
  | .function f => (s.get f).home

/-- The scope that defines what a name stands for in a scope. -/
def definer (s : Scopes) (i : Nat) (name : String) : Option Nat :=
  (s.resolve i name).bind fun (j, sym) => s.homeOf j sym

/-- Notes that a name is referred to in a scope: in this scope and in those around it, up to the one
that defines the name. A name that stands for nothing is not noted. -/
def refer (s : Scopes) (i : Nat) (name : String) : Except ScopeError Unit × Scopes :=
  match s.definer i name with
  | none => (.ok (), s)
  | some d =>
    let scopes := s.chain i
    let note (s : Scopes) (j : Nat) : Scopes :=
      s.modify j fun c => { c with refs := putKey name d c.refs }
    let s' := (scopes.takeWhile (· != d) ++ [d].filter scopes.contains).foldl note s
    (if scopes.contains d then .ok () else .error .homeless, s')

/-- The innermost scope around a scope that has given away a new name. -/
def aroundWithMangled (s : Scopes) (i : Nat) (name : String) : Option Nat :=
  (s.around i).find? fun j => ((s.get j).unmangled.lookup name).isSome

/-- The innermost scope around a scope that defines a name. -/
def aroundWithSymbol (s : Scopes) (i : Nat) (name : String) : Option Nat :=
  (s.around i).find? fun j => s.contains j name

/-- The new name would hide one that a scope around gave to a symbol referred to from here. -/
def hidesMangled (s : Scopes) (i : Nat) (name : String) : Bool :=
  match s.aroundWithMangled i name with
  | none => false
  | some j =>
    ((s.get j).unmangled.lookup name).any fun old => (s.get i).refs.lookup old = some j

/-- The new name would hide a symbol around that is referred to from here and keeps its name. -/
def hidesSymbol (s : Scopes) (i : Nat) (name : String) : Bool :=
  match s.aroundWithSymbol i name with
  | none => false
  | some j => (s.get i).refs.lookup name = some j && ((s.get j).mangled.lookup name).isNone

/-- A scope may give this short name away. -/
def isFree (s : Scopes) (i : Nat) (name : String) : Bool :=
  !s.hidesMangled i name && !s.hidesSymbol i name && !Names.isReserved name

/-- The first free short name after the one at `drawn`, with its positions. -/
def freeNameFrom (s : Scopes) (i : Nat) : Nat → List Nat → Option (String × List Nat)
  | 0, _ => none
  | fuel + 1, drawn =>
    match Names.nextPositions Names.letters.length drawn with
    | none => none
    | some ps =>
      let name := Names.wordAt Names.letters ps
      if s.isFree i name then some (name, ps) else freeNameFrom s i fuel ps

/-- Draws the next free short name of a scope. -/
def nextName (s : Scopes) (i : Nat) : Option (String × Scopes) :=
  (s.freeNameFrom i Names.count (s.get i).drawn).map fun (name, ps) =>
    (name, s.modify i fun c => { c with drawn := ps })

/-- Gives a new name to a symbol of a scope, if a short name is left. -/
def mangleSymbol (i : Nat) (s : Scopes) (name : String) : Option Scopes :=
  (s.nextName i).map fun (new, s) => s.modify i fun c =>
    { c with mangled := putKey name new c.mangled, unmangled := putKey new name c.unmangled }

/-- Gives new names to the symbols of a scope; those of an outermost scope only if `toplevel`. -/
def mangleScope (toplevel : Bool) (s : Scopes) (i : Nat) : Option Scopes :=
  if (s.get i).parent.isNone && !toplevel then some s
  else ((s.get i).symbols.map (·.1)).foldlM (mangleSymbol i) s

/-- Gives new names to the symbols of a scope and of the scopes inside it, outer scopes first; nothing
if a scope has more symbols than there are short names for it. -/
def mangleTree (s : Scopes) (root : Nat) (toplevel : Bool) : Option Scopes :=
  ((List.range s.all.length).filter fun i => (s.chain i).contains root).foldlM
    (mangleScope toplevel) s

def preorderFrom (s : Scopes) : Nat → Nat → List Nat
  | 0, _ => []
  | fuel + 1, i => i :: (s.children i).flatMap (preorderFrom s fuel)

/-- A scope, then the scopes inside it, each with what is inside it. -/
def preorder (s : Scopes) (i : Nat) : List Nat := s.preorderFrom s.all.length i

end Scopes

end JsMinify
