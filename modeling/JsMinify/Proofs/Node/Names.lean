import JsMinify.Node.Walk
import JsMinify.Scope.Binding
import Mathlib.Data.List.Basic

/-!
# The names of a tree

`Node.induct` is induction over trees: a property of all parts of a node, or of all items of a
sequence, has to carry over to the whole. `foldParts_eq` reads the values of parts as those of a map.
Renaming a tree, or dropping the notes on scopes, changes its names one by one and in place
(`names_rename`, `names_forgetScopes`).

`Marked` is what the parser makes sure of: a name open to renaming stands as an expression, or it is the
declared name of a variable, a function, a parameter or a `catch` clause; and nothing is noted about scopes.
-/

namespace JsMinify.Node

open List

variable {P : Node → Prop}

/-- Induction over trees. -/
theorem induct (absent : P .absent) (seq : ∀ ns, (∀ n ∈ ns, P n) → P (.seq ns))
    (node : ∀ k m parts, (∀ p ∈ parts, P p) → P (.node k m parts)) (n : Node) : P n :=
  @Node.rec P (fun ns => ∀ n ∈ ns, P n) absent seq node (by simp) (fun _ _ hn hns => forall_mem_cons.2 ⟨hn, hns⟩) n

variable {n : Node}

theorem eq_absent (h : n.isAbsent) : n = .absent := by
  cases n with
  | absent => rfl
  | _ => cases h

/-- The parts of a node, or the items of a sequence. -/
def inner : Node → List Node
  | .absent => []
  | .seq ns => ns
  | .node _ _ parts => parts

/-- Induction over trees, nodes and sequences alike. -/
theorem induct_inner (h : ∀ n, (∀ p ∈ n.inner, P p) → P n) (n : Node) : P n :=
  induct (h .absent (by simp [inner])) (fun ns => h (.seq ns)) (fun k m parts => h (.node k m parts)) n

theorem at?_cons (n : Node) (i : Nat) (path : Path) : n.at? (i :: path) = n.inner[i]?.bind (·.at? path) := by
  cases n <;> simp [at?, inner]

theorem at?_cons_iff {n x : Node} {i : Nat} {path : Path} :
    n.at? (i :: path) = some x ↔ ∃ a, n.inner[i]? = some a ∧ a.at? path = some x := by
  rw [at?_cons, Option.bind_eq_some_iff]

@[simp] theorem at?_nil (n : Node) : n.at? [] = some n := by cases n <;> rfl

theorem at?_append (n : Node) (p q : Path) : n.at? (p ++ q) = (n.at? p).bind (·.at? q) := by
  induction p generalizing n with
  | nil => simp
  | cons i p ih =>
    rw [cons_append, at?_cons, at?_cons]
    cases n.inner[i]? with
    | none => rfl
    | some a => exact ih a

theorem at?_inner {tree x : Node} {path : Path} {i : Nat} (h : tree.at? path = some n) (hx : n.inner[i]? = some x) :
    tree.at? (path ++ [i]) = some x := by
  rw [at?_append, h, Option.bind_some, at?_cons, hx, Option.bind_some, at?_nil]

variable {α : Type} {k : Kind}

theorem foldItems_eq (a : Algebra α) (ns : List Node) : foldItems a ns = ns.map fun n => (n, n.fold a) := by
  induction ns with
  | nil => rfl
  | cons n ns ih => rw [foldItems, ih, map_cons]

/-- A part as its algebra sees it. -/
def asPart (a : Algebra α) (n : Node) : Part α := ⟨n, n.fold a, n.items.map fun x => (x, x.fold a)⟩

theorem foldParts_eq (a : Algebra α) (ns : List Node) : foldParts a ns = ns.map (asPart a) := by
  induction ns with
  | nil => rfl
  | cons n ns ih => cases n <;> simp [foldParts, asPart, foldItems_eq, ih, items, fold]

@[simp] theorem map_node_asPart (a : Algebra α) (ns : List Node) : (ns.map (asPart a)).map (·.node) = ns :=
  map_map.trans (map_id ns)

theorem filter_asPart (a : Algebra α) {ns : List Node} (h : ∀ n ∈ ns, n.isAbsent = false) :
    (ns.map (asPart a)).filter (!·.node.isAbsent) = ns.map (asPart a) := by
  refine filter_eq_self.2 fun p hp => ?_
  obtain ⟨n, hn, rfl⟩ := mem_map.1 hp
  simp [asPart, h n hn]

theorem fold_seq (a : Algebra α) (ns : List Node) : (seq ns).fold a = a.seq (ns.map fun n => (n, n.fold a)) := by
  rw [fold, foldItems_eq]

theorem fold_node (a : Algebra α) (k : Kind) (m : Mark) (parts : List Node) :
    (node k m parts).fold a = a.node k m (parts.map (asPart a)) := by
  rw [fold, foldParts_eq]

/-! ## Names -/

open Binding

@[simp] theorem names_absent : absent.names = [] := rfl

@[simp] theorem names_seq (ns : List Node) : (seq ns).names = ns.flatMap names := by
  simp [names, fold_seq, occurrences, flatMap_map]
  rfl

@[simp] theorem names_identifier (x : String) (m : Mark) (parts : List Node) :
    (node (.identifier x) m parts).names = [(x, m)] := by
  simp [names, fold_node, occurrences]

/-- A node that is no name has the names of its parts. -/
theorem names_node (hk : ∀ x, k ≠ .identifier x) (m : Mark) (parts : List Node) :
    (node k m parts).names = parts.flatMap names := by
  have h : (node k m parts).names = (parts.map (asPart occurrences)).flatMap (·.value) := by
    rw [names, fold_node]
    cases k <;> first | rfl | exact absurd rfl (hk _)
  rw [h, flatMap_map]
  rfl

/-- A change of a tree that keeps its form changes the names one by one. -/
theorem names_change {g : Node → Node} {o : Occurrence → Occurrence} (absent : g .absent = .absent)
    (seq : ∀ ns, g (.seq ns) = .seq (ns.map g)) (name : ∀ x m parts, (g (.node (.identifier x) m parts)).names = [o (x, m)])
    (node : ∀ {k}, (∀ x, k ≠ .identifier x) → ∀ m parts, ∃ m', g (.node k m parts) = .node k m' (parts.map g)) (n : Node) :
    (g n).names = n.names.map o := by
  induction n using induct with
  | absent => rw [absent]; rfl
  | seq ns ih =>
    rw [seq, names_seq, names_seq, map_flatMap, flatMap_map]
    exact flatMap_congr ih
  | node k m parts ih =>
    by_cases hk : ∃ x, k = .identifier x
    · obtain ⟨x, rfl⟩ := hk
      rw [name, names_identifier, map_singleton]
    · have hk' : ∀ x, k ≠ .identifier x := fun x hx => hk ⟨x, hx⟩
      obtain ⟨m', hm⟩ := node hk' m parts
      rw [hm, names_node hk', names_node hk', map_flatMap, flatMap_map]
      exact flatMap_congr ih

theorem rename_node (hk : ∀ x, k ≠ .identifier x) (f : String → Mark → String) (m : Mark)
    (parts : List Node) : (node k m parts).rename f = node k m (parts.map (rename f)) := by
  have h : (node k m parts).rename f = node k m ((parts.map (asPart (renamed f))).map (·.value)) := by
    rw [rename, fold_node]
    cases k <;> first | rfl | exact absurd rfl (hk _)
  rw [h, map_map]
  rfl

/-- Every name is renamed in its place. -/
theorem names_rename (f : String → Mark → String) (n : Node) :
    (n.rename f).names = n.names.map fun o => (f o.1 o.2, o.2) := by
  refine names_change rfl (fun ns => ?_) (fun x m parts => ?_) (fun hk m parts => ⟨m, rename_node hk f m parts⟩) n
  · simp [rename, fold_seq, renamed]
  · simp [rename, fold_node, renamed]

/-- Dropping the notes on scopes keeps every name in its place. -/
theorem names_forgetScopes (n : Node) : n.forgetScopes.names = n.names.map fun o => (o.1, { o.2 with scope := none }) := by
  refine names_change rfl (fun ns => ?_) (fun x m parts => ?_) (fun _ m parts => ⟨{ m with scope := none }, ?_⟩) n
  · simp [forgetScopes, fold_seq, unnoted]
  · simp [forgetScopes, fold_node, unnoted]
  · simp [forgetScopes, fold_node, unnoted, asPart]

/-! ## Marks -/

/-- A declared name: it is open to renaming and no expression. -/
inductive DeclaredName : Node → Prop where
  | mk {x : String} {m : Mark} (scope : m.scope = none) (candidate : m.candidate = true)
      (inExpr : m.inExpr = false) : DeclaredName (.node (.identifier x) m [])

/-- Kinds of nodes that are names or declare some. -/
def bindsNames : Kind → Bool
  | .identifier _ | .varDecl | .catchClause | .function _ => true
  | _ => false

/-- No scope is noted, and names that are open to renaming are expressions or declared. -/
inductive Marked : Node → Prop where
  | absent : Marked .absent
  | seq {ns : List Node} (items : ∀ n ∈ ns, Marked n) : Marked (.seq ns)
  | name {x : String} {m : Mark} (scope : m.scope = none) (used : m.candidate = m.inExpr) :
      Marked (.node (.identifier x) m [])
  | declaration {k : Kind} {m : Mark} {name value : Node} (scope : m.scope = none)
      (kind : k = .varDecl ∨ k = .catchClause) (declared : DeclaredName name) (rest : Marked value) :
      Marked (.node k m [name, value])
  | function {form : FunctionForm} {m : Mark} {name : Node} {params body : List Node}
      (scope : m.scope = none) (declared : name = .absent ∨ DeclaredName name)
      (declares : ∀ p ∈ params, DeclaredName p) (rest : ∀ n ∈ body, Marked n) :
      Marked (.node (.function form) m [name, .seq params, .seq body])
  | other {k : Kind} {m : Mark} {parts : List Node} (scope : m.scope = none) (kind : bindsNames k = false)
      (rest : ∀ p ∈ parts, Marked p) : Marked (.node k m parts)

theorem Marked.items (h : Marked n) : ∀ x ∈ n.items, Marked x := by
  cases h with
  | seq items => exact items
  | _ => simp [Node.items]

/-- A name that stands as an expression is open to renaming. -/
theorem Marked.candidate (h : Marked n) : ∀ o ∈ n.names, o.2.inExpr → o.2.candidate := by
  have declared : ∀ {n : Node}, DeclaredName n → ∀ o ∈ n.names, o.2.inExpr → o.2.candidate := by
    rintro n ⟨-, candidate, -⟩ o ho -
    rw [names_identifier, mem_singleton] at ho
    rwa [ho]
  induction h with
  | absent => simp
  | seq items ih =>
    intro o ho
    obtain ⟨n, hn, ho⟩ := mem_flatMap.1 (names_seq _ ▸ ho)
    exact ih n hn o ho
  | name scope used =>
    intro o ho he
    rw [names_identifier, mem_singleton] at ho
    subst ho
    exact used.trans he
  | declaration scope kind name rest ih =>
    rw [names_node (by rcases kind with rfl | rfl <;> simp)]
    simp only [flatMap_cons, flatMap_nil, append_nil, mem_append]
    exact fun o ho => ho.elim (declared name o) (ih o)
  | function scope name params rest ih =>
    rw [names_node (by simp)]
    simp only [flatMap_cons, flatMap_nil, append_nil, mem_append, names_seq, mem_flatMap]
    rintro o (ho | ⟨p, hp, ho⟩ | ⟨n, hn, ho⟩)
    · rcases name with rfl | name
      · simp at ho
      · exact declared name o ho
    · exact declared (params p hp) o ho
    · exact ih n hn o ho
  | @other k m parts scope kind rest ih =>
    rw [names_node (by rintro x rfl; cases kind)]
    intro o ho
    obtain ⟨p, hp, ho⟩ := mem_flatMap.1 ho
    exact ih p hp o ho

end JsMinify.Node
