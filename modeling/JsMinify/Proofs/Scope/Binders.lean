import JsMinify.Proofs.Scope.Renaming

/-!
# The function that a name belongs to

A name belongs to the innermost function around it that declares it (`Node.binderOf`); after renaming it is shown as that
function shows it (`shownFrom_scopeOf`). Here accessors are no functions, and what a `catch` clause or a function
expression names counts as declared by the function around it. So names in the body of a setter pass by its parameters
(`setter_use_kept_iff`), and a name that is global may still belong to a function (`global_kept_iff`).
-/

namespace JsMinify

open List Binding Node Scopes Bool

variable {g n out tree : Node} {q path : Path} {x : String} {toplevel : Bool} {scopes : Scopes} {m : Mark}

namespace Node

/-- What a function declares includes the name. -/
def declaresName (x : String) (g : Node) : Bool := g.locals.any (·.2 = x)

/-- The innermost function around a place that declares a name. -/
def binder? (n : Node) (path : Path) (x : String) : Option Path :=
  (n.around path).reverse.find? fun f => (n.at? f).any (declaresName x)

/-- The number of the innermost function around a place that declares a name; zero if there is none. -/
def binderOf (n : Node) (path : Path) (x : String) : Nat := (n.binder? path x).elim 0 n.numberOf

end Node

namespace Outline

variable {bound : Node} {s : Scopes}

/-- The scopes around a place are those of the functions around it, and the outermost one. -/
theorem chain_scopeOf (h : Outline tree bound s) (hn : s.Nested) (path : Path) :
    s.chain (tree.scopeOf path) = (tree.around path).reverse.map tree.numberOf ++ [0] := by
  generalize hfs : tree.around path = fs
  induction fs using List.reverseRecOn generalizing path with
  | nil =>
    have hzero : tree.scopeOf path = 0 := by rw [scopeOf, hfs]; rfl
    have hparent : (s.get 0).parent = none := congrArg (·.2.2) h.outermost
    rw [hzero, hn.chain_eq (hzero ▸ h.scopeOf_lt path), hparent]
    rfl
  | append_singleton fs f ih =>
    have hscope : tree.scopeOf path = tree.numberOf f := by
      rw [scopeOf, hfs, getLast?_concat]
      rfl
    have hmem : f ∈ tree.around path := by simp [hfs]
    obtain ⟨g, hg, hfun⟩ := mem_functions.1 (mem_functions_of_around hmem)
    have hparent : (s.get (tree.numberOf f)).parent = some (tree.scopeOf f) := congrArg (·.2.2) (h.function f g hg hfun)
    rw [hscope, hn.chain_eq (hscope ▸ h.scopeOf_lt path), hparent, reverse_append]
    exact congrArg (tree.numberOf f :: ·) (ih f (around_of_last hfs))

theorem lookup_isSome (h : Outline tree bound s) {f : Path} (hg : tree.at? f = some g) (hfun : g.isFunction)
    (x : String) : ((s.get (tree.numberOf f)).symbols.lookup x).isSome = (tree.at? f).any (declaresName x) := by
  rw [Bool.eq_iff_iff, lookup_isSome_iff, h.locals f g hg hfun, mem_addNew, hg]
  simp [declaresName]

/-- A name stands for a symbol of the function it belongs to. -/
theorem resolve_scopeOf (h : Outline tree bound s) (hn : s.Nested) (path : Path) (x : String) :
    (∃ sym, s.resolve (tree.scopeOf path) x = some (tree.binderOf path x, sym)) ∨
      (s.resolve (tree.scopeOf path) x = none ∧ tree.binderOf path x = 0 ∧ (s.get 0).symbols.lookup x = none) := by
  have hchain := h.chain_scopeOf hn path
  have hlookup : ∀ f ∈ (tree.around path).reverse, ((s.get (tree.numberOf f)).symbols.lookup x).isSome =
      (tree.at? f).any (declaresName x) := by
    intro f hf
    obtain ⟨g, hg, hfun⟩ := mem_functions.1 (mem_functions_of_around (mem_reverse.1 hf))
    exact h.lookup_isSome hg hfun x
  cases hf : tree.binder? path x with
  | some f =>
    obtain ⟨hdeclares, as, bs, hsplit, hinner⟩ := find?_eq_some_iff_append.1 hf
    rw [hsplit] at hlookup hchain
    obtain ⟨sym, hsym⟩ := Option.isSome_iff_exists.1 ((hlookup f (by simp)).trans hdeclares)
    refine .inl ⟨sym, resolve_eq_some_iff.2 ⟨as.map tree.numberOf, bs.map tree.numberOf ++ [0], ?_, ?_, ?_⟩⟩
    · rw [hchain, binderOf, hf]
      simp
    · intro j hj
      obtain ⟨a, ha, rfl⟩ := mem_map.1 hj
      rw [← Option.not_isSome_iff_eq_none, hlookup a (by simp [ha])]
      simpa using hinner a ha
    · rw [binderOf, hf]
      exact hsym
  | none =>
    have hnone : ∀ j ∈ (tree.around path).reverse.map tree.numberOf, (s.get j).symbols.lookup x = none := by
      intro j hj
      obtain ⟨a, ha, rfl⟩ := mem_map.1 hj
      rw [← Option.not_isSome_iff_eq_none, hlookup a ha]
      simpa using find?_eq_none.1 hf a ha
    have hzero : tree.binderOf path x = 0 := by rw [binderOf, hf]; rfl
    cases hsym : (s.get 0).symbols.lookup x with
    | some sym => exact .inl ⟨sym, resolve_eq_some_iff.2 ⟨_, [], by rw [hchain, hzero], hnone, by rw [hzero, hsym]⟩⟩
    | none =>
      refine .inr ⟨resolve_eq_none_iff.2 fun j hj => ?_, hzero, rfl⟩
      rw [hchain, mem_append, mem_singleton] at hj
      rcases hj with hj | rfl
      · exact hnone j hj
      · exact hsym

end Outline

namespace Scopes

/-- Only symbols are shown by other names. -/
theorem Finished.shownName_of_lookup_none {s : Scopes} (h : s.Finished toplevel) {j : Nat}
    (hj : j < s.all.length) (hx : (s.get j).symbols.lookup x = none) : s.shownName j x = x := by
  rcases h.settled j hj with ⟨-, hu⟩ | ⟨-, q, hg⟩
  · exact shownName_of_unnamed hu x
  · have hnone : (s.get j).mangled.lookup x = none := by
      rw [← Option.not_isSome_iff_eq_none, lookup_isSome_iff, hg.mangled, keys_zip hg.length, ← lookup_isSome_iff, hx]
      simp
    rw [shownName, hnone]
    rfl

end Scopes

/-- A name is shown as the function it belongs to shows it. -/
theorem shownFrom_scopeOf (hm : Marked tree)
    (h : tree.mangleWithScopes toplevel = .ok (out, scopes)) (path : Path) (x : String) :
    scopes.shownFrom (tree.scopeOf path) x = scopes.shownName (tree.binderOf path x) x := by
  obtain ⟨bound, plain, hb, -, -⟩ := mangleWithScopes_cases h
  have renamed := mangleWithScopes_spec hm hb h
  have outline := outline_of_bind hm hb
  obtain ⟨built, -, -, -⟩ := bind_spec hm hb
  rcases outline.resolve_scopeOf built.toNested path x with ⟨sym, hr⟩ | ⟨hr, hzero, hnone⟩
  · rw [renamed.alike.resolve_eq] at hr
    exact shownFrom_of_resolve hr
  · rw [renamed.alike.resolve_eq] at hr
    rw [renamed.alike.symbols] at hnone
    have hpos : 0 < scopes.all.length := renamed.alike.length ▸ built.pos
    rw [shownFrom, hr, hzero, renamed.finished.shownName_of_lookup_none hpos hnone]
    rfl

/-! ## Setters -/

namespace Node

theorem around_append (hq : n.at? q = some g) (r : Path) : n.around (q ++ r) = n.around q ++ (g.around r).map (q ++ ·) := by
  induction q generalizing n with
  | nil =>
    cases hq
    simp [around]
  | cons i q ih =>
    obtain ⟨p, hp, hq⟩ := at?_cons_iff.1 hq
    rw [cons_append, around_cons hp, around_cons hp, ih hq, map_append, map_map, append_assoc]
    rfl

theorem spotFrom_append (hq : n.at? q = some g) (s : Option (Kind × Nat)) (r : Path) :
    n.spotFrom s (q ++ r) = g.spotFrom (n.spotFrom s q) r := by
  induction q generalizing n s with
  | nil =>
    cases hq
    rfl
  | cons i q ih =>
    obtain ⟨p, hp, hg⟩ := at?_cons_iff.1 hq
    cases n with
    | absent => cases hp
    | seq ns =>
      rw [cons_append, spotFrom, spotFrom, getD_eq_getElem?_getD, show ns[i]? = some p from hp]
      exact ih hg s
    | node k m parts =>
      rw [cons_append, spotFrom, spotFrom, getD_eq_getElem?_getD, show parts[i]? = some p from hp]
      exact ih hg _

/-- A name that no function further in declares belongs to the same function from there. -/
theorem binderOf_append (hq : n.at? q = some g) {r : Path}
    (hfree : ∀ f ∈ n.around (q ++ r), q <+: f → (n.at? f).any (declaresName x) = false) :
    n.binderOf (q ++ r) x = n.binderOf q x := by
  rw [around_append hq] at hfree
  have hnone : ((g.around r).map (q ++ ·)).reverse.find? (fun f => (n.at? f).any (declaresName x)) = none := by
    refine find?_eq_none.2 fun f hf => ?_
    obtain ⟨f', -, rfl⟩ := mem_map.1 (mem_reverse.1 hf)
    rw [hfree _ (mem_append_right _ (mem_reverse.1 hf)) (prefix_append q f')]
    exact false_ne_true
  rw [binderOf, binderOf, binder?, binder?, around_append hq, reverse_append, find?_append, hnone, Option.none_or]

end Node

theorem candidate_of_inExpr (hm : Marked tree) {ps : List Node}
    (hx : tree.at? path = some (.node (.identifier x) m ps)) (he : m.inExpr) : m.candidate :=
  hm.candidate _ ((mem_names_iff hm.isLeafName).2 ⟨path, ps, hx⟩) he

/-- The parameters of a setter are mentioned, not declared. -/
theorem spot_of_setter_parameter {text : String} {p : Parser} (h : parse text = (.ok tree, p))
    {parts : List Node} (hq : tree.at? q = some (.node .setter m parts)) (j : Nat) :
    tree.spot (q ++ [1, j]) = some (.setter, 1) := by
  obtain ⟨r, hformed⟩ := (parse_formed h).at? hq
  cases hformed with
  | node _ _ _ count parted =>
    obtain ⟨key, params, body, rfl⟩ := Shape.parts_three count
    have hparams : Formed (.list .name) params := parted 1 params rfl
    cases hparams with
    | absent omissible => cases omissible
    | seq => rw [spot, spotFrom_append hq]; rfl
    | node place => cases place

/-- A setter is no function: its parameter keeps its name, while the names in its body belong to the functions around it. So
a name in the body, not declared again further in, is still that of the parameter exactly if the function around the setter
that it belongs to keeps the name; and another name comes to be that of the parameter exactly if its own function gives
it that name. -/
theorem setter_use_kept_iff {text : String} {tree : Node} {p : Parser} (h : parse text = (.ok tree, p)) (toplevel : Bool)
    {q : Path} {mark : Mark} {parts : List Node} (hq : tree.at? q = some (.node .setter mark parts)) {j : Nat} {x : String}
    {m : Mark} {ps : List Node} (hx : tree.at? (q ++ [1, j]) = some (.node (.identifier x) m ps)) :
    (tree.hasBodies = true → (tree.names.filter (·.2.candidate)).length < Nat.pow 2 53 →
      ∃ r, tree.mangleWithScopes toplevel = .ok r) ∧
    ∀ out scopes, tree.mangleWithScopes toplevel = .ok (out, scopes) →
      (∃ ps', out.at? (q ++ [1, j]) = some (.node (.identifier x) m ps')) ∧
      (∀ r m' ps', tree.at? (q ++ 2 :: r) = some (.node (.identifier x) m' ps') → m'.inExpr = true →
        (∀ f ∈ tree.around (q ++ 2 :: r), q <+: f → (tree.at? f).any (declaresName x) = false) →
        ∃ y ps'', out.at? (q ++ 2 :: r) = some (.node (.identifier y) m' ps'') ∧
          (y = x ↔ scopes.shownName (tree.binderOf q x) x = x)) ∧
      ∀ r z m' ps', tree.at? (q ++ 2 :: r) = some (.node (.identifier z) m' ps') → z ≠ x →
        ∃ y ps'', out.at? (q ++ 2 :: r) = some (.node (.identifier y) m' ps'') ∧
          (y = x ↔ m'.candidate = true ∧ scopes.shownName (tree.binderOf (q ++ 2 :: r) z) z = x) := by
  have hm := parse_marked h
  refine ⟨fun hb few => (mangle_ok_iff toplevel hm few).2 (isBindable_of_hasBodies (parse_formed h) hb),
    fun out scopes hmangle => ⟨?_, fun r m' ps' hu he hfree => ?_, fun r z m' ps' hz hne => ?_⟩⟩
  · obtain ⟨-, hcandidate⟩ := marks_of_spot h hx (spot_of_setter_parameter h hq j)
    obtain ⟨ps', hat⟩ := mangled_at hm hmangle hx
    rw [hcandidate] at hat
    exact ⟨ps', hat⟩
  · obtain ⟨ps'', hat⟩ := mangled_at hm hmangle hu
    rw [if_pos (candidate_of_inExpr hm hu he), shownFrom_scopeOf hm hmangle, binderOf_append hq hfree] at hat
    exact ⟨_, ps'', hat, Iff.rfl⟩
  · obtain ⟨ps'', hat⟩ := mangled_at hm hmangle hz
    refine ⟨_, ps'', hat, ?_⟩
    rw [shownFrom_scopeOf hm hmangle]
    cases m'.candidate with
    | false => simp [hne]
    | true => simp

/-- A function and a setter in it have a parameter `x` each: that of the function is shown as `a`, and with it the name in the
body of the setter, while the parameter of the setter stays. -/
theorem setter_use_lost : ∃ tree p out scopes parts, parse "function f(x){return {set p(x){y=x;}};}" = (.ok tree, p) ∧
      tree.mangleWithScopes false = .ok (out, scopes) ∧
      tree.at? [0, 2, 0, 0, 0] = some (.node .setter { line := 1 } parts) ∧
      (∃ ps, out.at? [0, 2, 0, 0, 0, 1, 0] = some (.node (.identifier "x") { line := 1 } ps)) ∧
      ∃ y m ps, out.at? [0, 2, 0, 0, 0, 2, 0, 0, 1] = some (.node (.identifier y) m ps) ∧ y ≠ "x" := by
  obtain ⟨tree, p, hparse, htest⟩ := exists_of_test "function f(x){return {set p(x){y=x;}};}"
    (fun tree => tree.hasBodies && (tree.names.filter (·.2.candidate)).length < Nat.pow 2 53 &&
      ((tree.at? [0, 2, 0, 0, 0]).any fun n => n = .node .setter { line := 1 } n.inner) &&
      tree.around [0, 2, 0, 0, 0, 2, 0, 0, 1] = [[0]] &&
      tree.at? [0, 2, 0, 0, 0, 1, 0] = some (.node (.identifier "x") { line := 1 } []) &&
      tree.at? [0, 2, 0, 0, 0, 2, 0, 0, 1] =
        some (.node (.identifier "x") { line := 1, candidate := true, inExpr := true } []) &&
      (tree.mangleWithScopes false).toOption.any fun r => r.2.shownName (tree.binderOf [0, 2, 0, 0, 0] "x") "x" = "a")
    (by decide +kernel)
  simp only [Bool.and_eq_true, decide_eq_true_eq, Option.any_eq_true] at htest
  obtain ⟨⟨⟨⟨⟨⟨hbodies, hfew⟩, n, hn, hsetter⟩, haround⟩, hparam⟩, hused⟩, r, hrun, hshown⟩ := htest
  rw [hsetter] at hn
  obtain ⟨hruns, hkeeps⟩ := setter_use_kept_iff hparse false (q := [0, 2, 0, 0, 0]) (j := 0) hn hparam
  obtain ⟨⟨out, scopes⟩, hmangle⟩ := hruns hbodies hfew
  cases hmangle.symm.trans (ok_of_toOption hrun)
  obtain ⟨hkept, huse, -⟩ := hkeeps out scopes hmangle
  obtain ⟨y, ps, hy, hiff⟩ := huse [0, 0, 1] _ _ hused rfl fun f hf hprefix => by
    change f ∈ tree.around [0, 2, 0, 0, 0, 2, 0, 0, 1] at hf
    rw [haround, List.mem_singleton] at hf
    rw [hf] at hprefix
    exact absurd hprefix (by decide)
  refine ⟨tree, p, out, scopes, n.inner, hparse, hmangle, hn, hkept, y, _, ps, hy, fun hkeep => ?_⟩
  rw [hiff, hshown] at hkeep
  exact absurd hkeep (by decide)

/-! ## Globals -/

/-- By the language, what is so declared belongs to the function whose body the declaration stands in. -/
def Declarator.isLocal : Declarator → Bool
  | .parameter | .variable | .function .declared => true
  | _ => false

namespace Node

/-- A `catch` clause or a function expression in the body of a function has the name. -/
def leaks (x : String) (g : Node) : Bool := g.locals.any fun d => !d.1.isLocal && d.2 = x

/-- By the language, a name at a place is global: no function around it declares the name, and it stands neither in a function
expression nor in the block of a `catch` clause with that name. -/
structure IsGlobal (tree : Node) (path : Path) (x : String) : Prop where
  undeclared : ∀ f ∈ tree.around path, ∀ g, tree.at? f = some g → ∀ d ∈ g.locals, d.1.isLocal = true → d.2 ≠ x
  unnamed : ∀ f ∈ tree.around path, ∀ m parts, tree.at? f = some (.node (.function .expression) m parts) →
    (Node.node (.function .expression) m parts).functionName ≠ some x
  uncaught : ∀ q r m name block, path = q ++ 1 :: r → tree.at? q = some (.node .catchClause m [name, block]) → name.word ≠ .ok x

/-- A global name belongs to the innermost function around it that leaks it. -/
theorem IsGlobal.binder?_eq (h : IsGlobal tree path x) :
    tree.binder? path x = (tree.around path).reverse.find? fun f => (tree.at? f).any (leaks x) := by
  refine find?_congr fun f hf => ?_
  cases hg : tree.at? f with
  | none => rfl
  | some g =>
    have hundeclared := h.undeclared f (mem_reverse.1 hf) g hg
    rw [Option.any_some, Option.any_some, Bool.eq_iff_iff, declaresName, leaks, any_eq_true, any_eq_true]
    refine exists_congr fun d => and_congr_right fun hd => ?_
    rw [and_eq_true, not_eq_true', decide_eq_true_eq]
    exact ⟨fun hdx => ⟨eq_false_iff.2 fun hlocal => hundeclared d hd hlocal hdx, hdx⟩, And.right⟩

end Node

/-- The outermost scope shows its names as they are unless it gives new ones. -/
theorem shownName_outermost (hm : Marked tree)
    (h : tree.mangleWithScopes false = .ok (out, scopes)) (x : String) : scopes.shownName 0 x = x := by
  obtain ⟨bound, plain, hb, -, -⟩ := mangleWithScopes_cases h
  have renamed := mangleWithScopes_spec hm hb h
  obtain ⟨built, -, -, -⟩ := bind_spec hm hb
  have hparent : (scopes.get 0).parent = none := by
    rw [← renamed.alike.parent]
    exact congrArg (·.2.2) (outline_of_bind hm hb).outermost
  rcases renamed.finished.settled 0 (renamed.alike.length ▸ built.pos) with ⟨-, hu⟩ | ⟨hk, -⟩
  · exact shownName_of_unnamed hu x
  · exact absurd ⟨hparent, rfl⟩ hk

/-- A global name that stands as an expression is kept exactly if the functions around it have no `catch` clause and no function
expression of that name directly in them, or the innermost one that has keeps the name. -/
theorem global_kept_iff {text : String} {tree out : Node} {p : Parser} {scopes : Scopes} (h : parse text = (.ok tree, p))
    (hmangle : tree.mangleWithScopes false = .ok (out, scopes)) {path : Path} {x : String} {m : Mark} {ps : List Node}
    (hx : tree.at? path = some (.node (.identifier x) m ps)) (he : m.inExpr = true) (hglobal : IsGlobal tree path x) :
    ∃ y ps', out.at? path = some (.node (.identifier y) m ps') ∧
      (y = x ↔ ∀ f, (tree.around path).reverse.find? (fun f => (tree.at? f).any (leaks x)) = some f →
        scopes.shownName (tree.numberOf f) x = x) := by
  have hm := parse_marked h
  obtain ⟨ps', hat⟩ := mangled_at hm hmangle hx
  rw [if_pos (candidate_of_inExpr hm hx he), shownFrom_scopeOf hm hmangle, binderOf] at hat
  refine ⟨_, ps', hat, ?_⟩
  rw [← hglobal.binder?_eq]
  cases tree.binder? path x with
  | none => simpa using shownName_outermost hm hmangle x
  | some f => simp

/-- The name of a `catch` clause is given to a global of the same name behind it. -/
theorem global_renamed_behind_catch : ∃ tree p out scopes, parse "function f(){try{}catch(e){}return e;}" = (.ok tree, p) ∧
      tree.mangleWithScopes false = .ok (out, scopes) ∧
      tree.at? [0, 2, 1, 0] = some (.node (.identifier "e") { line := 1, candidate := true, inExpr := true } []) ∧
      IsGlobal tree [0, 2, 1, 0] "e" ∧
      ∃ y m ps, out.at? [0, 2, 1, 0] = some (.node (.identifier y) m ps) ∧ y ≠ "e" := by
  obtain ⟨tree, p, hparse, htest⟩ := exists_of_test "function f(){try{}catch(e){}return e;}"
    (fun tree => tree.around [0, 2, 1, 0] = [[0]] && tree.numberOf [0] = 1 &&
      ((tree.at? [0]).any fun g => g = .node (.function .declared) { line := 1 } g.inner && g.locals = [(.caught, "e")]) &&
      ((tree.at? [0, 2]).any fun n => n = .seq n.inner) &&
      tree.at? [0, 2, 1, 0] = some (.node (.identifier "e") { line := 1, candidate := true, inExpr := true } []) &&
      (tree.mangleWithScopes false).toOption.any fun r => r.2.shownName 1 "e" = "a")
    (by decide +kernel)
  simp only [Bool.and_eq_true, decide_eq_true_eq, Option.any_eq_true] at htest
  obtain ⟨⟨⟨⟨⟨haround, hnumber⟩, g, hg, hfun, hlocals⟩, n, hn, hseq⟩, hat⟩, ⟨out, scopes⟩, hmangle, hshown⟩ := htest
  have hmangle := ok_of_toOption hmangle
  have hglobal : IsGlobal tree [0, 2, 1, 0] "e" := by
    rw [hfun] at hg
    refine ⟨fun f hf g' hg' d hd hlocal => ?_, fun f hf m parts hf' => ?_, fun q r m name block hpath hcatch => ?_⟩
    · rw [haround, List.mem_singleton] at hf
      rw [hf, hg, ← hfun] at hg'
      rw [← Option.some.inj hg', hlocals, List.mem_singleton] at hd
      rw [hd] at hlocal
      cases hlocal
    · rw [haround, List.mem_singleton] at hf
      rw [hf, hg] at hf'
      cases hf'
    · -- The only step to a second part leads from a sequence.
      have hq : q = [0, 2] := by
        rcases q with _ | ⟨a, _ | ⟨b, _ | ⟨c, _ | ⟨d, q⟩⟩⟩⟩ <;> simp at hpath
        rw [hpath.1, hpath.2.1]
      rw [hq, hn, hseq] at hcatch
      cases hcatch
  obtain ⟨y, ps, hy, hiff⟩ := global_kept_iff hparse hmangle hat rfl hglobal
  refine ⟨tree, p, out, scopes, hparse, hmangle, hat, hglobal, y, _, ps, hy, fun hkeep => ?_⟩
  have hfind : (tree.around [0, 2, 1, 0]).reverse.find? (fun f => (tree.at? f).any (leaks "e")) = some [0] := by
    rw [haround, List.reverse_singleton, List.find?_cons_of_pos (by rw [hg, Option.any_some, leaks, hlocals]; rfl)]
  have hkept := hiff.1 hkeep [0] hfind
  rw [hnumber, hshown] at hkept
  exact absurd hkept (by decide)

end JsMinify
