import JsMinify.Scope

/-!
# Listings of scopes

A tree of scopes as a list, each scope before those inside it. In a listing a scope is told by its
place there.
-/

namespace JsMinify

/-- Pairs in the order of their keys, by code point. -/
def sortedByKey {β : Type} (pairs : List (String × β)) : List (String × β) :=
  pairs.mergeSort fun a b => !(b.1 < a.1)

/-- A scope in a listing. -/
structure ScopeEntry where
  kind : ScopeKind
  name : Option String
  parent : Option Nat
  symbols : List (String × Symbol)
  refs : List (String × Option Nat)
  mangled : List (String × String)
  unmangled : List (String × String)

/-- The listing of a scope and the scopes inside it. -/
def Scopes.listing (s : Scopes) (root : Nat) : List ScopeEntry :=
  let order := s.preorder root
  order.map fun i =>
    let c := s.get i
    { kind := c.kind
      name := c.name
      parent := c.parent.bind fun p => order.idxOf? p
      symbols := c.symbols
      refs := (sortedByKey c.refs).map fun (n, d) => (n, order.idxOf? d)
      mangled := sortedByKey c.mangled
      unmangled := sortedByKey c.unmangled }

end JsMinify
