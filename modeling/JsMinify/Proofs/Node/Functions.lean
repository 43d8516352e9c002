import JsMinify.Proofs.Node.Relabel

/-!
# The functions of a tree

`Node.functions` lists the paths of the functions of a tree in the order of the text, and `Node.around` those that
have a place in their parameters or in their body, the outermost first. `Node.scopeOf` tells a place by the number of
the innermost one. `Node.declares` lists what a tree declares outside of the functions in it, and `Node.locals` what a
function declares.
-/

namespace JsMinify

open List Option Bool

variable {n p : Node} {f path : Path} {i k : Nat}

/-- How a name is declared. -/
inductive Declarator where
  | parameter | variable | caught
  | function (form : FunctionForm)
  deriving DecidableEq, Repr

namespace Node

def isFunction : Node → Bool
  | .node (.function _) _ _ => true
  | _ => false

def functionName : Node → Option String
  | .node (.function _) _ (.node (.identifier x) _ _ :: _) => some x
  | _ => none

/-- Paths below nodes that stand side by side, the first of them with a number. -/
def spread : Nat → List (List Path) → List Path
  | _, [] => []
  | i, paths :: rest => paths.map (i :: ·) ++ spread (i + 1) rest

/-- The path of a function itself. -/
def ownPath (isFunction : Bool) : List Path := if isFunction then [[]] else []

def functionPaths : Algebra (List Path) where
  absent := []
  seq := fun ns => spread 0 (ns.map (·.2))
  node := fun k m parts => ownPath (Node.node k m []).isFunction ++ spread 0 (parts.map (·.value))

/-- The functions of a tree in the order of the text, each before those inside it. -/
def functions (n : Node) : List Path := n.fold functionPaths

/-- The functions that have a place in their parameters or in their body, the outermost first. -/
def around : Node → Path → List Path
  | _, [] => []
  | n, i :: path => ownPath (n.isFunction && i != 0) ++ (around (n.inner.getD i .absent) path).map (i :: ·)

/-- The number of a function, from one on. -/
def numberOf (n : Node) (f : Path) : Nat := n.functions.idxOf f + 1

/-- The number of the innermost function around a place; zero if there is none. -/
def scopeOf (n : Node) (path : Path) : Nat := (n.around path).getLast?.elim 0 n.numberOf

def declaredAs (d : Declarator) : Node → List (Declarator × String)
  | .node (.identifier x) _ _ => [(d, x)]
  | _ => []

def declarations : Algebra (List (Declarator × String)) where
  absent := []
  seq := fun ns => ns.flatMap (·.2)
  node := fun k _ parts =>
    let part := Algebra.part [] parts
    match k with
    | .varDecl => declaredAs .variable (part 0).node ++ (part 1).value
    | .catchClause => declaredAs .caught (part 0).node ++ (part 1).value
    | .function form => declaredAs (.function form) (part 0).node
    | _ => parts.flatMap (·.value)

/-- What a tree declares outside of the functions in it, in the order of the text. -/
def declares (n : Node) : List (Declarator × String) := n.fold declarations

/-- What a function declares: its parameters, then what its body declares. Of another node, what it declares. -/
def locals : Node → List (Declarator × String)
  | .node (.function _) _ parts =>
    (parts.getD 1 .absent).items.flatMap (declaredAs .parameter) ++ (parts.getD 2 .absent).items.flatMap declares
  | n => n.declares

/-! ## Paths -/

theorem inner_relabel (f : Relabelling) (n : Node) : (n.relabel f).inner = n.inner.map (relabel f) := by
  cases n <;> simp [inner]

theorem at?_relabel (f : Relabelling) (n : Node) (path : Path) : (n.relabel f).at? path = (n.at? path).map (relabel f) := by
  induction path generalizing n with
  | nil => simp [at?]
  | cons i path ih =>
    rw [at?_cons, at?_cons, inner_relabel, getElem?_map]
    cases n.inner[i]? with
    | none => rfl
    | some p => exact ih p

/-- The names of a tree are its nodes that are names. -/
theorem mem_names_iff (hl : n.every isLeafName) {x : String} {m : Mark} :
    (x, m) ∈ n.names ↔ ∃ path ps, n.at? path = some (.node (.identifier x) m ps) := by
  induction n using induct_inner with
  | h n ih =>
    by_cases hn : ∃ y m' ps, n = .node (.identifier y) m' ps
    · obtain ⟨y, m', ps, rfl⟩ := hn
      rw [every_node, and_eq_true] at hl
      obtain rfl := isEmpty_iff.1 hl.1
      rw [names_identifier, mem_singleton, Prod.mk.injEq]
      constructor
      · rintro ⟨rfl, rfl⟩
        exact ⟨[], [], rfl⟩
      · rintro ⟨path, ps, hp⟩
        cases path with
        | nil =>
          cases some.inj hp
          exact ⟨rfl, rfl⟩
        | cons i path => simp [at?] at hp
    · have hnames : n.names = n.inner.flatMap names := by
        cases n with
        | absent => rfl
        | seq ns => exact names_seq ns
        | node k m' ps => exact names_node (by rintro y rfl; exact hn ⟨y, m', ps, rfl⟩) ..
      have hinner : ∀ p ∈ n.inner, p.every isLeafName := by
        cases n with
        | absent => simp [inner]
        | seq ns =>
          rw [every_seq, and_eq_true] at hl
          exact all_eq_true.1 hl.2
        | node k m' ps =>
          rw [every_node, and_eq_true] at hl
          exact all_eq_true.1 hl.2
      rw [hnames, mem_flatMap]
      constructor
      · rintro ⟨p, hp, hx⟩
        obtain ⟨path, ps, hat⟩ := (ih p hp (hinner p hp)).1 hx
        obtain ⟨i, hi⟩ := mem_iff_getElem?.1 hp
        exact ⟨i :: path, ps, by rw [at?_cons, hi]; exact hat⟩
      · rintro ⟨path, ps, hat⟩
        cases path with
        | nil => exact absurd ⟨x, m, ps, some.inj hat⟩ hn
        | cons i path =>
          obtain ⟨p, hi, hat⟩ := at?_cons_iff.1 hat
          have hp := mem_of_getElem? hi
          exact ⟨p, hp, (ih p hp (hinner p hp)).2 ⟨path, ps, hat⟩⟩

theorem around_cons (hp : n.inner[i]? = some p) (path : Path) :
    n.around (i :: path) = ownPath (n.isFunction && i != 0) ++ (p.around path).map (i :: ·) := by
  rw [around, getD_eq_getElem?_getD, hp]
  rfl

variable {paths : List (List Path)}

theorem mem_spread {s : Nat} :
    (spread s paths)[k]? = some f ↔ ∃ i ps l q, paths[i]? = some ps ∧ ps[l]? = some q ∧ f = (s + i) :: q ∧
      k = (paths.take i).flatten.length + l := by
  induction paths generalizing s k with
  | nil => simp [spread]
  | cons ps rest ih =>
    rw [spread, getElem?_append, length_map]
    constructor
    · intro h
      split at h
      · rw [getElem?_map, map_eq_some_iff] at h
        obtain ⟨q, hq, rfl⟩ := h
        exact ⟨0, ps, k, q, rfl, hq, rfl, by simp⟩
      · obtain ⟨i, ps', l, q, hi, hl, rfl, hk⟩ := ih.1 h
        refine ⟨i + 1, ps', l, q, hi, hl, by rw [Nat.add_assoc, Nat.add_comm 1 i], ?_⟩
        rw [take_succ_cons, flatten_cons, length_append]
        omega
    · rintro ⟨i, ps', l, q, hi, hl, rfl, rfl⟩
      cases i with
      | zero =>
        cases hi
        obtain ⟨hlt, -⟩ := List.getElem?_eq_some_iff.1 hl
        rw [if_pos (by simpa using hlt), getElem?_map]
        simpa using hl
      | succ i =>
        rw [take_succ_cons, flatten_cons, length_append, if_neg (by omega)]
        exact ih.2 ⟨i, ps', l, q, hi, hl, by rw [Nat.add_assoc, Nat.add_comm 1 i], by omega⟩

/-! ## Functions -/

theorem functions_eq (n : Node) : n.functions = ownPath n.isFunction ++ spread 0 (n.inner.map functions) := by
  cases n with
  | absent => rfl
  | seq ns =>
    rw [functions, fold_seq]
    exact congrArg (spread 0) map_map
  | node k m parts =>
    have hself : (Node.node k m parts).isFunction = (Node.node k m []).isFunction := by cases k <;> rfl
    rw [functions, fold_node, hself]
    exact congrArg (fun paths => ownPath (Node.node k m []).isFunction ++ spread 0 paths) map_map

/-- How many functions of a node stand before its part with a number. -/
def functionsBefore (n : Node) (i : Nat) : Nat :=
  (ownPath n.isFunction).length + ((n.inner.take i).flatMap functions).length

/-- The functions of a node: itself, or those of its parts. -/
theorem getElem?_functions : n.functions[k]? = some f ↔
    (n.isFunction ∧ k = 0 ∧ f = []) ∨ ∃ i p l q, n.inner[i]? = some p ∧ p.functions[l]? = some q ∧ f = i :: q ∧
      k = n.functionsBefore i + l := by
  have hparts : ∀ k, (spread 0 (n.inner.map functions))[k]? = some f ↔ ∃ i p l q, n.inner[i]? = some p ∧
      p.functions[l]? = some q ∧ f = i :: q ∧ k = ((n.inner.take i).flatMap functions).length + l := by
    intro k
    rw [mem_spread]
    constructor
    · rintro ⟨i, ps, l, q, hi, hl, rfl, rfl⟩
      rw [getElem?_map, map_eq_some_iff] at hi
      obtain ⟨p, hp, rfl⟩ := hi
      exact ⟨i, p, l, q, hp, hl, by rw [Nat.zero_add], by rw [← map_take, flatMap_def]⟩
    · rintro ⟨i, p, l, q, hp, hl, rfl, rfl⟩
      exact ⟨i, p.functions, l, q, by rw [getElem?_map, hp]; rfl, hl, by rw [Nat.zero_add],
        by rw [← map_take, flatMap_def]⟩
  rw [functions_eq]
  unfold functionsBefore
  cases n.isFunction with
  | false => simpa [ownPath] using hparts k
  | true =>
    cases k with
    | zero =>
      simp only [ownPath, if_true, cons_append, nil_append, getElem?_cons_zero, some.injEq, length_cons, length_nil]
      constructor
      · rintro rfl
        exact .inl ⟨trivial, trivial, rfl⟩
      · rintro (⟨-, -, rfl⟩ | ⟨i, p, l, q, -, -, -, hk⟩)
        · rfl
        · omega
    | succ k =>
      simp only [ownPath, if_true, cons_append, nil_append, getElem?_cons_succ, hparts, length_cons, length_nil]
      constructor
      · rintro ⟨i, p, l, q, hp, hl, rfl, rfl⟩
        exact .inr ⟨i, p, l, q, hp, hl, rfl, by omega⟩
      · rintro (⟨-, hk, -⟩ | ⟨i, p, l, q, hp, hl, rfl, hk⟩)
        · cases hk
        · exact ⟨i, p, l, q, hp, hl, rfl, by omega⟩

theorem getElem?_functions_part {l : Nat} {q : Path} (hp : n.inner[i]? = some p) (hq : p.functions[l]? = some q) :
    n.functions[n.functionsBefore i + l]? = some (i :: q) :=
  getElem?_functions.2 (.inr ⟨i, p, l, q, hp, hq, rfl, rfl⟩)

/-- The listed paths are those that lead to functions. -/
theorem mem_functions : f ∈ n.functions ↔ ∃ g, n.at? f = some g ∧ g.isFunction := by
  rw [mem_iff_getElem?]
  induction n using induct_inner generalizing f with
  | h n ih =>
    constructor
    · rintro ⟨k, hk⟩
      rcases getElem?_functions.1 hk with ⟨hfun, -, rfl⟩ | ⟨i, p, l, q, hp, hl, rfl, -⟩
      · exact ⟨n, rfl, hfun⟩
      · obtain ⟨g, hg, hfun⟩ := (ih p (mem_of_getElem? hp)).1 ⟨l, hl⟩
        exact ⟨g, by rw [at?_cons, hp]; exact hg, hfun⟩
    · rintro ⟨g, hg, hfun⟩
      cases f with
      | nil =>
        cases hg
        exact ⟨0, getElem?_functions.2 (.inl ⟨hfun, rfl, rfl⟩)⟩
      | cons i q =>
        obtain ⟨p, hp, hg⟩ := at?_cons_iff.1 hg
        obtain ⟨l, hl⟩ := (ih p (mem_of_getElem? hp)).2 ⟨g, hg, hfun⟩
        exact ⟨_, getElem?_functions_part hp hl⟩

theorem spread_sorted (h : ∀ ps ∈ paths, ps.Pairwise (· < ·)) (s : Nat) : (spread s paths).Pairwise (· < ·) := by
  induction paths generalizing s with
  | nil => exact .nil
  | cons ps rest ih =>
    obtain ⟨hps, hrest⟩ := forall_mem_cons.1 h
    refine pairwise_append.2 ⟨hps.map _ fun a b hab => cons_lt_cons_iff.2 (.inr ⟨rfl, hab⟩), ih hrest _, ?_⟩
    intro f hf g hg
    obtain ⟨q, -, rfl⟩ := mem_map.1 hf
    obtain ⟨k, hk⟩ := mem_iff_getElem?.1 hg
    obtain ⟨i, ps', l, q', -, -, rfl, -⟩ := mem_spread.1 hk
    exact cons_lt_cons_iff.2 (.inl (by omega))

/-- The functions are listed in the order of the text, each once. -/
theorem functions_sorted (n : Node) : n.functions.Pairwise (· < ·) := by
  induction n using induct_inner with
  | h n ih =>
    rw [functions_eq, ownPath]
    have hparts := spread_sorted (forall_mem_map.2 ih) 0
    split
    · refine pairwise_cons.2 ⟨fun f hf => ?_, hparts⟩
      obtain ⟨k, hk⟩ := mem_iff_getElem?.1 hf
      obtain ⟨i, ps, l, q, -, -, rfl, -⟩ := mem_spread.1 hk
      exact nil_lt_cons ..
    · exact hparts

theorem numberOf_eq (h : n.functions[k]? = some f) : n.numberOf f = k + 1 := by
  have hnodup : n.functions.Nodup := by
    refine (functions_sorted n).imp ?_
    rintro f _ hlt rfl
    exact List.lt_irrefl f hlt
  obtain ⟨hk, rfl⟩ := List.getElem?_eq_some_iff.1 h
  rw [numberOf, hnodup.idxOf_getElem]

/-! ## Declarations -/

theorem declares_seq (ns : List Node) : (seq ns).declares = ns.flatMap declares := by
  rw [declares, fold_seq]
  exact flatMap_map ..

/-- A node that declares nothing itself. -/
theorem declares_node {k : Kind} (hk : bindsNames k = false) (m : Mark) (parts : List Node) :
    (node k m parts).declares = parts.flatMap declares := by
  have h : (node k m parts).declares = (parts.map (asPart declarations)).flatMap (·.value) := by
    rw [declares, fold_node]
    cases k with
    | identifier | varDecl | catchClause | function => cases hk
    | _ => rfl
  rw [h, flatMap_map]
  rfl

theorem declares_varDecl (m : Mark) (name value : Node) :
    (node .varDecl m [name, value]).declares = declaredAs .variable name ++ value.declares := by
  rw [declares, fold_node]
  rfl

theorem declares_catchClause (m : Mark) (name block : Node) :
    (node .catchClause m [name, block]).declares = declaredAs .caught name ++ block.declares := by
  rw [declares, fold_node]
  rfl

theorem declares_function (form : FunctionForm) (m : Mark) (name : Node) (parts : List Node) :
    (node (.function form) m (name :: parts)).declares = declaredAs (.function form) name := by
  rw [declares, fold_node]
  rfl

theorem isFunction_of_bindsNames {k : Kind} (hk : bindsNames k = false) (m : Mark) (parts : List Node) :
    (node k m parts).isFunction = false := by
  cases k with
  | function => cases hk
  | _ => rfl

/-! ## Places -/

/-- A place stands in scope `i`: in scope `c` if no function of the tree is around it, and else in that of the innermost
one, where the functions of the tree are numbered from `lo` on. -/
def Stands (n : Node) (c lo : Nat) (path : Path) (i : Nat) : Prop :=
  (n.around path = [] ∧ i = c) ∨ ∃ f k, (n.around path).getLast? = some f ∧ n.functions[k]? = some f ∧ i = lo + k

theorem stands_nil (n : Node) (c lo : Nat) : n.Stands c lo [] c := .inl ⟨rfl, rfl⟩

variable {c lo : Nat}

theorem stands_cons {j : Nat} (hp : n.inner[i]? = some p)
    (h : p.Stands (if n.isFunction && i != 0 then lo else c) (lo + n.functionsBefore i) path j) :
    n.Stands c lo (i :: path) j := by
  rw [Stands, around_cons hp]
  rcases h with ⟨hnone, rfl⟩ | ⟨f, k, hlast, hk, rfl⟩
  · rw [hnone, map_nil, append_nil]
    cases hown : n.isFunction && i != 0 with
    | false => exact .inl ⟨rfl, rfl⟩
    | true => exact .inr ⟨[], 0, rfl, getElem?_functions.2 (.inl ⟨(and_eq_true_iff.1 hown).1, rfl, rfl⟩), rfl⟩
  · refine .inr ⟨i :: f, _, ?_, getElem?_functions_part hp hk, Nat.add_assoc ..⟩
    rw [getLast?_append, getLast?_map, hlast]
    rfl

theorem Stands.of_functions_nil (h : n.Stands c lo path i) (hn : n.functions = []) (lo' : Nat) : n.Stands c lo' path i := by
  rcases h with h | ⟨f, k, -, hk, -⟩
  · exact .inl h
  · rw [hn] at hk
    cases hk

/-- Places in a whole program. -/
theorem Stands.eq_scopeOf (h : n.Stands 0 1 path i) : i = n.scopeOf path := by
  rw [scopeOf]
  rcases h with ⟨hnone, rfl⟩ | ⟨f, k, hlast, hk, rfl⟩
  · rw [hnone]
    rfl
  · rw [hlast, elim_some, numberOf_eq hk, Nat.add_comm]

theorem mem_functions_of_around (h : f ∈ n.around path) : f ∈ n.functions := by
  induction path generalizing n f with
  | nil => simp [around] at h
  | cons i path ih =>
    rw [around, mem_append] at h
    rcases h with h | h
    · unfold ownPath at h
      split at h
      · next hown =>
        rw [mem_singleton.1 h]
        exact mem_functions.2 ⟨n, rfl, (and_eq_true_iff.1 hown).1⟩
      · cases h
    · obtain ⟨q, hq, rfl⟩ := mem_map.1 h
      obtain ⟨g, hg, hfun⟩ := mem_functions.1 (ih hq)
      refine mem_functions.2 ⟨g, ?_, hfun⟩
      rw [at?_cons]
      rw [getD_eq_getElem?_getD] at hg
      cases hp : n.inner[i]? with
      | none =>
        rw [hp] at hg
        cases q with
        | nil =>
          cases some.inj hg
          cases hfun
        | cons => cases hg
      | some p =>
        rw [hp] at hg
        exact hg

theorem scopeOf_le (n : Node) (path : Path) : n.scopeOf path ≤ n.functions.length := by
  rw [scopeOf]
  cases hf : (n.around path).getLast? with
  | none => exact Nat.zero_le _
  | some f => exact idxOf_lt_length_of_mem (mem_functions_of_around (mem_of_getLast? hf))

/-- What is around the innermost function around a place. -/
theorem around_of_last {fs : List Path} (h : n.around path = fs ++ [f]) : n.around f = fs := by
  induction path generalizing n fs f with
  | nil => simp [around] at h
  | cons i path ih =>
    rw [around] at h
    rcases eq_nil_or_concat ((n.inner.getD i .absent).around path) with hin | ⟨gs, g, hin⟩
    · rw [hin, map_nil, append_nil, ownPath] at h
      split at h
      · obtain ⟨rfl, hf⟩ := append_inj' (show [] ++ [[]] = fs ++ [f] from h) rfl
        obtain rfl := singleton_inj.1 hf
        rfl
      · simp at h
    · rw [hin, concat_eq_append, map_append, ← append_assoc] at h
      obtain ⟨rfl, hf⟩ := append_inj' h rfl
      obtain rfl := singleton_inj.1 hf
      rw [around, ih (hin.trans concat_eq_append)]

end Node

end JsMinify
