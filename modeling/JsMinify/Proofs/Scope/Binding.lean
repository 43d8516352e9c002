import JsMinify.Proofs.Scope.Built
import JsMinify.Proofs.Node.Names

/-!
# Finding the scopes of a tree

Every name of a marked tree is noted with a scope that exists, and a name that is open to renaming
without being an expression is defined in that very scope (`Placed`). `Sound` is what finding the
scopes of one tree does to the scopes found so far; `fold_sound` proves it by induction on the marks,
and `bind_spec` reads it off for a whole program.
-/

namespace JsMinify.Binding

open List Scopes

variable {b b' : Binder} {n name : Node} {body params : List Node} {m : Mark} {x : String} {r : Node × Binder}
  {form : FunctionForm} {k : Kind} {s : Scopes} {α γ : Type} {b'' : Binder} {xs : List γ} {f : γ → Bind Node}
  {ns : List Node} {value tree : Node}

/-! ## Computations -/

theorem bind_ok {β : Type} {x : Bind α} {f : α → Bind β} {r : β × Binder} :
    (x >>= f) b = .ok r ↔ ∃ a b', x b = .ok (a, b') ∧ f a b' = .ok r := by
  show (x b >>= fun p => f p.1 p.2) = _ ↔ _
  rcases h : x b with e | ⟨a, b'⟩
  · simp [bind, Except.bind]
  · simp [bind, Except.bind]

theorem pure_ok {a : α} {r : α × Binder} : (pure a : Bind α) b = .ok r ↔ r = (a, b) := by
  show Except.ok (a, b) = _ ↔ _
  simp [eq_comm]

theorem word_ok {r : String × Binder} (h : (liftM n.word : Bind String) b = .ok r) : n.word = .ok r.1 ∧ r.2 = b := by
  have h' : (n.word >>= fun x => (pure (x, b) : Except TreeError (String × Binder))) = .ok r := h
  cases hw : n.word with
  | error e => simp [hw, bind, Except.bind] at h'
  | ok x =>
    simp only [hw, bind, Except.bind, pure, Except.pure] at h'
    cases h'
    exact ⟨rfl, rfl⟩

/-- A node with the note that it stands in a scope. -/
def noted (i : Nat) (n : Node) : Node := n.modifyMark fun m => { m with scope := some i }

theorem note_ok (h : note n b = .ok r) : r = (noted b.current n, b) := by
  cases show Except.ok (noted b.current n, b) = _ from h
  rfl

theorem defineNewVar_eq (x : String) (b : Binder) :
    defineNewVar x b = if b.scopes.contains b.current x then .ok ((), b) else defineVar x b := by
  show (if b.scopes.contains b.current x then (pure () : Bind Unit) else defineVar x) b = _
  split <;> rfl

/-! ## What a computation keeps -/

open Node

/-- The scopes found so far, with a current one. -/
structure Ready (b : Binder) : Prop where
  built : Built b.scopes
  current : b.current < b.scopes.all.length

/-- A computation adds to the scopes and comes back to the current one. -/
structure Turn (b b' : Binder) : Prop where
  ready : Ready b'
  current : b'.current = b.current
  grows : Grows b.scopes b'.scopes

theorem Turn.refl (h : Ready b) : Turn b b := ⟨h, rfl, Grows.refl _⟩

theorem Turn.trans (h : Turn b b') (h' : Turn b' b'') : Turn b b'' :=
  ⟨h'.ready, h'.current.trans h.current, h.grows.trans h'.grows⟩

/-- A name stands in a scope that exists; if it is open to renaming and no expression, it is defined
there. -/
def Placed (s : Scopes) (o : Occurrence) : Prop :=
  ∃ i, o.2.scope = some i ∧ i < s.all.length ∧ (o.2.candidate = true → o.2.inExpr = false → s.contains i o.1)

theorem Placed.grow {t : Scopes} {o : Occurrence} (h : Placed s o) (hg : Grows s t) : Placed t o := by
  obtain ⟨i, hs, hi, hc⟩ := h
  exact ⟨i, hs, Nat.lt_of_lt_of_le hi hg.length, fun h1 h2 => hg.contains _ _ (hc h1 h2)⟩

/-- A name without the note on its scope. -/
def bare (o : Occurrence) : Occurrence := (o.1, { o.2 with scope := none })

/-- Some names behind others, each at most once. -/
def addNew (known new : List String) : List String :=
  new.foldl (fun known x => if x ∈ known then known else known ++ [x]) known

/-- The names that are declared in a scope, in the order of the text. -/
def declaredIn (j : Nat) (os : List Occurrence) : List String :=
  (os.filter fun o => o.2.candidate && !o.2.inExpr && o.2.scope = some j).map (·.1)

theorem addNew_append (known xs ys : List String) : addNew known (xs ++ ys) = addNew (addNew known xs) ys :=
  foldl_append

theorem mem_addNew {known new : List String} : x ∈ addNew known new ↔ x ∈ known ∨ x ∈ new := by
  induction new generalizing known with
  | nil => simp [addNew]
  | cons y new ih =>
    change x ∈ addNew (if y ∈ known then known else known ++ [y]) new ↔ _
    rw [ih]
    by_cases hy : y ∈ known
    · rw [if_pos hy, mem_cons]
      exact ⟨fun h => h.imp id .inr, fun h => h.elim .inl fun h => h.elim (fun h => .inl (h ▸ hy)) .inr⟩
    · rw [if_neg hy, mem_append, mem_singleton, mem_cons, or_assoc]

theorem declaredIn_append (j : Nat) (xs ys : List Occurrence) :
    declaredIn j (xs ++ ys) = declaredIn j xs ++ declaredIn j ys := by
  simp [declaredIn]

/-- The names of the symbols of a scope, in order. -/
def Binder.keysOf (b : Binder) (j : Nat) : List String := keys (b.scopes.get j).symbols

/-- The outcome of finding the scopes of trees: every name is placed, only notes were added, and the names that
are declared in a scope are its new symbols. -/
structure Outcome (b b' : Binder) (before after : List Occurrence) : Prop extends Turn b b' where
  placed : ∀ o ∈ after, Placed b'.scopes o
  same : after.map bare = before.map bare
  symbols : ∀ j, b'.keysOf j = addNew (b.keysOf j) (declaredIn j after)

theorem Outcome.append {xs ys xs' ys' : List Occurrence} (h : Outcome b b' xs xs')
    (h' : Outcome b' b'' ys ys') : Outcome b b'' (xs ++ ys) (xs' ++ ys') := by
  refine ⟨h.toTurn.trans h'.toTurn, fun o ho => ?_, by rw [map_append, h.same, h'.same,
    map_append], fun j => by rw [declaredIn_append, addNew_append, ← h.symbols, h'.symbols]⟩
  rcases mem_append.1 ho with ho | ho
  · exact (h.placed o ho).grow h'.grows
  · exact h'.placed o ho

/-- Finding the scopes of a tree that has them found. -/
def Sound (n : Node) (x : Bind Node) : Prop :=
  ∀ b n' b', Ready b → x b = .ok (n', b') → Outcome b b' n.names n'.names

theorem mapM_cons_ok {x : γ} {r : List Node × Binder} (h : (x :: xs).mapM f b = .ok r) :
    ∃ n b₁ ns b₂, f x b = .ok (n, b₁) ∧ xs.mapM f b₁ = .ok (ns, b₂) ∧ r = (n :: ns, b₂) := by
  rw [mapM_cons] at h
  obtain ⟨n, b₁, hx, h⟩ := bind_ok.1 h
  obtain ⟨ns, b₂, hxs, h⟩ := bind_ok.1 h
  exact ⟨n, b₁, ns, b₂, hx, hxs, pure_ok.1 h⟩

theorem mapM_sound (node : γ → Node) (h : ∀ x ∈ xs, Sound (node x) (f x)) (hb : Ready b) (hr : xs.mapM f b = .ok (ns, b')) :
    Outcome b b' ((xs.map node).flatMap names) (ns.flatMap names) := by
  induction xs generalizing b ns with
  | nil =>
    obtain ⟨rfl, rfl⟩ := Prod.mk.injEq .. ▸ pure_ok.1 (show (pure [] : Bind _) b = _ from hr)
    exact ⟨Turn.refl hb, by simp, rfl, fun _ => rfl⟩
  | cons x xs ih =>
    obtain ⟨n, b₁, ns', b₂, hx, hxs, ⟨⟩⟩ := mapM_cons_ok hr
    have first := h x mem_cons_self b n b₁ hb hx
    have rest := ih (fun y hy => h y (mem_cons_of_mem _ hy)) first.ready hxs
    simpa only [map_cons, flatMap_cons] using first.append rest

theorem mapM_fold_sound {ns' : List Node} (h : ∀ n ∈ ns, Sound n (n.fold algebra)) (hb : Ready b)
    (hr : (ns.map fun n => (n, n.fold algebra)).mapM (fun q => q.2) b = .ok (ns', b')) :
    Outcome b b' (ns.flatMap names) (ns'.flatMap names) := by
  have out := mapM_sound (fun q : Node × Bind Node => q.1) (by simpa using h) hb hr
  simpa [Function.comp_def] using out

/-! ## Declared names -/

/-- A declared name, noted in the scope that defines it. -/
theorem declared_placed (hn : DeclaredName n) (hw : n.word = .ok x) (hc : b.current < b.scopes.all.length)
    (hx : b.scopes.contains b.current x) : (∀ o ∈ (noted b.current n).names, Placed b.scopes o) ∧
      (noted b.current n).names.map bare = n.names.map bare := by
  obtain ⟨-⟩ := hn
  cases hw
  refine ⟨fun o ho => ?_, rfl⟩
  simp only [noted, modifyMark, names_identifier, mem_singleton] at ho
  subst ho
  exact ⟨b.current, rfl, hc, fun _ _ => hx⟩

theorem declaredIn_noted (hn : DeclaredName n) (hw : n.word = .ok x) (i j : Nat) :
    declaredIn j (noted i n).names = if j = i then [x] else [] := by
  obtain ⟨-, candidate, inExpr⟩ := hn
  cases hw
  by_cases hj : i = j
  · simp [declaredIn, noted, modifyMark, candidate, inExpr, hj]
  · simp [declaredIn, noted, modifyMark, hj, Ne.symm hj]

/-- Names are made symbols of the current scope. -/
structure Defines (b b' : Binder) (xs : List String) : Prop where
  defined : ∀ x ∈ xs, b'.scopes.contains b.current x
  symbols : ∀ j, b'.keysOf j = addNew (b.keysOf j) (if j = b.current then xs else [])

theorem defines_define {i : Nat} (hi : i < s.all.length) (x : String) (sym : Symbol) (c : Nat) :
    Defines ⟨s, i⟩ ⟨s.define i x sym, c⟩ [x] := by
  refine ⟨by simpa using contains_define hi x sym, fun j => ?_⟩
  by_cases hj : j = i
  · subst hj
    rw [if_pos rfl, Binder.keysOf, symbols_define, if_pos ⟨rfl, hi⟩, keys_putKey]
    rfl
  · rw [if_neg hj, Binder.keysOf, symbols_define, if_neg fun h => hj h.1.symm]
    rfl

theorem defineVar_ok {r : Unit × Binder} (hb : Ready b) (h : defineVar x b = .ok r) : Turn b r.2 ∧ Defines b r.2 [x] := by
  obtain rfl := Except.ok.inj (show Except.ok ((), (⟨b.scopes.define b.current x .variable, b.current⟩ : Binder)) = _ from h)
  have hd : Built (b.scopes.define b.current x .variable) := hb.built.define x hb.current (by simp)
  refine ⟨⟨⟨hd, ?_⟩, rfl, Grows.define b.scopes b.current x .variable⟩, defines_define hb.current x .variable _⟩
  rw [length_define]
  exact hb.current

theorem defineNewVar_ok {r : Unit × Binder} (hb : Ready b) (h : defineNewVar x b = .ok r) :
    Turn b r.2 ∧ Defines b r.2 [x] := by
  rw [defineNewVar_eq] at h
  by_cases hx : b.scopes.contains b.current x
  · rw [if_pos hx] at h
    cases h
    refine ⟨Turn.refl hb, by simpa using hx, fun j => ?_⟩
    split
    · next hj =>
      subst hj
      exact (if_pos (contains_iff_mem_keys.1 hx)).symm
    · rfl
  · rw [if_neg hx] at h
    exact defineVar_ok hb h

/-- A declared name is made a symbol of the scope that is noted on it. -/
theorem Defines.outcome (h : Defines b b' [x]) (turn : Turn b b') (hn : DeclaredName n) (hw : n.word = .ok x) :
    Outcome b b' n.names (noted b'.current n).names := by
  have hc := h.defined x (mem_singleton_self x)
  rw [← turn.current] at hc
  obtain ⟨placed, same⟩ := declared_placed hn hw turn.ready.current hc
  refine ⟨turn, placed, same, fun j => ?_⟩
  rw [declaredIn_noted hn hw, turn.current]
  exact h.symbols j

theorem parameter_sound (hn : DeclaredName n) : Sound n (parameter n) := by
  intro b n' b' hb h
  obtain ⟨x, b₁, hx, h₁⟩ := bind_ok.1 h
  obtain ⟨hw, rfl⟩ := word_ok hx
  obtain ⟨u, b₂, hd, h₂⟩ := bind_ok.1 h₁
  obtain ⟨turn, defines⟩ := defineVar_ok hb hd
  obtain ⟨rfl, rfl⟩ := Prod.mk.injEq .. ▸ note_ok h₂
  exact defines.outcome turn hn hw

/-! ## Nodes -/

/-- A node that declares nothing has the scopes of its parts found in order. -/
theorem node_plain_ok (hk : bindsNames k = false) {parts : List (Part (Bind Node))} (h : node k m parts b = .ok r) :
    ∃ ns b', (parts.mapM fun q => q.value : Bind (List Node)) b = .ok (ns, b') ∧ r = (.node k m ns, b') := by
  have hplain : (do return .node k m (← parts.mapM fun q => q.value) : Bind Node) b = .ok r := by
    cases k with
    | identifier | varDecl | catchClause | function => cases hk
    | getter | setter | finallyClause =>
      simp only [node] at h
      split at h
      · cases h
      · exact h
    | _ => exact h
  obtain ⟨ns, b', hm, hp⟩ := bind_ok.1 hplain
  exact ⟨ns, b', hm, pure_ok.1 hp⟩

theorem other_sound (hk : bindsNames k = false) {parts : List Node} (h : ∀ p ∈ parts, Sound p (p.fold algebra)) :
    Sound (.node k m parts) ((Node.node k m parts).fold algebra) := by
  intro b n' b' hb hr
  rw [fold_node] at hr
  obtain ⟨ns, b₁, hm, he⟩ := node_plain_ok hk hr
  obtain ⟨rfl, rfl⟩ := Prod.mk.injEq .. ▸ he
  have hk' : ∀ x, k ≠ .identifier x := by
    rintro x rfl
    cases hk
  have hs : ∀ q ∈ parts.map (asPart algebra), Sound q.node q.value := by
    intro q hq
    obtain ⟨p, hp, rfl⟩ := mem_map.1 hq
    exact h p hp
  have out := mapM_sound (fun q => q.node) hs hb hm
  rw [map_map, show (fun q : Part (Bind Node) => q.node) ∘ asPart algebra = id from rfl, map_id] at out
  rwa [names_node hk', names_node hk']

/-- A declaration defines its name, then the scopes of its other part are found. -/
theorem declaration_ok (hk : k = .varDecl ∨ k = .catchClause) (h : (Node.node k m [name, value]).fold algebra b = .ok r) :
    ∃ x u b₁ v b₂, name.word = .ok x ∧ defineNewVar x b = .ok (u, b₁) ∧
      value.fold algebra b₁ = .ok (v, b₂) ∧ r = (.node k m [noted b₁.current name, v], b₂) := by
  rw [fold_node] at h
  have hplain : (do
      defineNewVar (← name.word)
      let ident ← note name
      return .node k m [ident, ← value.fold algebra] : Bind Node) b = .ok r := by
    rcases hk with rfl | rfl
    · exact h
    · obtain ⟨x, b₀, hx, h₀⟩ := bind_ok.1 h
      obtain ⟨u, b₁, hd, h₁⟩ := bind_ok.1 h₀
      obtain ⟨ident, b₂, hi, h₂⟩ := bind_ok.1 h₁
      refine bind_ok.2 ⟨x, b₀, hx, bind_ok.2 ⟨u, b₁, hd, bind_ok.2 ⟨ident, b₂, hi, ?_⟩⟩⟩
      split at h₂
      · cases h₂
      · exact h₂
  obtain ⟨x, b₀, hx, h₀⟩ := bind_ok.1 hplain
  obtain ⟨hw, rfl⟩ := word_ok hx
  obtain ⟨u, b₁, hd, h₁⟩ := bind_ok.1 h₀
  obtain ⟨ident, b₂, hi, h₂⟩ := bind_ok.1 h₁
  obtain ⟨rfl, rfl⟩ := Prod.mk.injEq .. ▸ note_ok hi
  obtain ⟨v, b₃, hv, h₃⟩ := bind_ok.1 h₂
  exact ⟨x, u, _, v, b₃, hw, hd, hv, pure_ok.1 h₃⟩

theorem declaration_sound (hk : k = .varDecl ∨ k = .catchClause) (hn : DeclaredName name)
    (hv : Sound value (value.fold algebra)) :
    Sound (.node k m [name, value]) ((Node.node k m [name, value]).fold algebra) := by
  intro b n' b' hb h
  obtain ⟨x, u, b₁, v, b₂, hw, hd, hf, he⟩ := declaration_ok hk h
  obtain ⟨rfl, rfl⟩ := Prod.mk.injEq .. ▸ he
  obtain ⟨turn, defines⟩ := defineNewVar_ok hb hd
  have out := (defines.outcome turn hn hw).append (hv _ _ _ turn.ready hf)
  have hk' : ∀ x, k ≠ .identifier x := by
    rcases hk with rfl | rfl <;> simp
  rw [names_node hk', names_node hk']
  simpa using out

/-- The scope of a function is made, and its name defined in the scope around it. -/
theorem enter_ok {name : Option String} {r : Unit × Binder} (hb : Ready b) (h : enter name b = .ok r) :
    Ready r.2 ∧ Grows b.scopes r.2.scopes ∧ Defines b r.2 name.toList := by
  obtain ⟨built, grows, current, -⟩ := hb.built.enter hb.current name
  cases show Except.ok ((), _) = _ from h
  refine ⟨⟨built, current⟩, grows, ?_⟩
  have hnew : ∀ j, keys ((b.scopes.new .function name (some b.current)).2.get j).symbols = b.keysOf j := fun j => by
    rw [symbols_new]
    rfl
  cases name with
  | none => exact ⟨by simp, fun j => (hnew j).trans (by simp [addNew])⟩
  | some x =>
    have defines := defines_define (s := (b.scopes.new .function (some x) (some b.current)).2) (i := b.current)
      (by rw [length_new]; exact Nat.lt_succ_of_lt hb.current) x (.function b.scopes.all.length) b.scopes.all.length
    exact ⟨defines.defined, fun j => (defines.symbols j).trans (by rw [Binder.keysOf, hnew]; rfl)⟩

/-- Finding the scopes of a function, once its name is known. -/
def functionParts (form : FunctionForm) (m : Mark) (name : Node) (params body : List Node)
    (outer : Nat) (ident : Option String) : Bind Node := do
  let n ← note name
  enter ident
  let ps ← params.mapM parameter
  let bs ← (body.map fun n => (n, n.fold algebra)).mapM (fun q => q.2)
  modify fun b => { b with current := outer }
  return .node (.function form) m [n, .seq ps, .seq bs]

theorem function_eq (b : Binder) : (Node.node (.function form) m [name, .seq params, .seq body]).fold algebra b =
      (if name.isAbsent then functionParts form m name params body b.current none
        else some <$> (liftM name.word : Bind String) >>= functionParts form m name params body b.current) b := by
  rw [fold_node]
  rfl

theorem function_ok (h : (Node.node (.function form) m [name, .seq params, .seq body]).fold algebra b = .ok r) :
    ∃ ident, (name.isAbsent → ident = none) ∧ (name.isAbsent = false → ∃ x, name.word = .ok x ∧ ident = some x) ∧
      functionParts form m name params body b.current ident b = .ok r := by
  rw [function_eq] at h
  split at h
  · next ha => exact ⟨none, fun _ => rfl, by simp [ha], h⟩
  · next ha =>
    obtain ⟨ident, b₁, hi, h₁⟩ := bind_ok.1 h
    rw [map_eq_pure_bind] at hi
    obtain ⟨x, b₂, hx, hp⟩ := bind_ok.1 hi
    obtain ⟨hw, rfl⟩ := word_ok hx
    cases pure_ok.1 hp
    exact ⟨some x, fun ha' => absurd ha' ha, fun _ => ⟨x, hw, rfl⟩, h₁⟩

theorem functionParts_ok {outer : Nat} {ident : Option String}
    (h : functionParts form m name params body outer ident b = .ok r) :
    ∃ u b₁ ps b₂ bs b₃, enter ident b = .ok (u, b₁) ∧ params.mapM parameter b₁ = .ok (ps, b₂) ∧
      (body.map fun n => (n, n.fold algebra)).mapM (fun q => q.2) b₂ = .ok (bs, b₃) ∧
      r = (.node (.function form) m [noted b.current name, .seq ps, .seq bs], { b₃ with current := outer }) := by
  obtain ⟨n, b₀, hn, h₀⟩ := bind_ok.1 h
  cases note_ok hn
  obtain ⟨u, b₁, he, h₁⟩ := bind_ok.1 h₀
  obtain ⟨ps, b₂, hp, h₂⟩ := bind_ok.1 h₁
  obtain ⟨bs, b₃, hs, h₃⟩ := bind_ok.1 h₂
  obtain ⟨v, b₄, hv, h₄⟩ := bind_ok.1 h₃
  obtain ⟨-, rfl⟩ := Prod.mk.inj (Except.ok.inj (show Except.ok ((), ({ b₃ with current := outer } : Binder)) = _ from hv))
  exact ⟨u, b₁, ps, b₂, bs, b₃, he, hp, hs, pure_ok.1 h₄⟩

theorem function_sound (hn : name = .absent ∨ DeclaredName name) (hp : ∀ p ∈ params, DeclaredName p)
    (hs : ∀ n ∈ body, Sound n (n.fold algebra)) : Sound (.node (.function form) m [name, .seq params, .seq body])
      ((Node.node (.function form) m [name, .seq params, .seq body]).fold algebra) := by
  intro b n' b' hb h
  obtain ⟨ident, unnamed, named, hf⟩ := function_ok h
  obtain ⟨u, b₁, ps, b₂, bs, b₃, he, hps, hbs, hr⟩ := functionParts_ok hf
  cases hr
  obtain ⟨ready, grows, defines⟩ := enter_ok hb he
  have params' := mapM_sound id (fun p hm => parameter_sound (hp p hm)) ready hps
  have body' := mapM_fold_sound hs params'.ready hbs
  have inner := params'.append body'
  have hg := grows.trans inner.grows
  -- The function's own name stands in the scope around it.
  have outer : (∀ o ∈ (noted b.current name).names, Placed b₃.scopes o) ∧
      (noted b.current name).names.map bare = name.names.map bare ∧
      ∀ j, declaredIn j (noted b.current name).names = if j = b.current then ident.toList else [] := by
    rcases hn with rfl | hn
    · obtain rfl := unnamed rfl
      exact ⟨by simp [noted, modifyMark], rfl, fun j => by simp [declaredIn, noted, modifyMark]⟩
    · obtain ⟨x, hw, rfl⟩ := named (by obtain ⟨-⟩ := hn; rfl)
      obtain ⟨placed, same⟩ := declared_placed (b := ⟨b₃.scopes, b.current⟩) hn hw
        (Nat.lt_of_lt_of_le hb.current hg.length) (inner.grows.contains _ _ (defines.defined x (by simp)))
      exact ⟨placed, same, declaredIn_noted hn hw b.current⟩
  refine ⟨⟨⟨inner.ready.built, Nat.lt_of_lt_of_le hb.current hg.length⟩, rfl, hg⟩, ?_, ?_, fun j => ?_⟩
  · rw [names_node (by simp)]
    simp only [flatMap_cons, flatMap_nil, append_nil, names_seq, mem_append]
    rintro o (ho | ho)
    · exact outer.1 o ho
    · exact inner.placed o (mem_append.2 ho)
  · rw [names_node (by simp), names_node (by simp)]
    have same := inner.same
    rw [map_id] at same
    simp only [flatMap_cons, flatMap_nil, append_nil, names_seq, map_append, outer.2.1]
    simpa using same
  · rw [names_node (by simp)]
    simp only [flatMap_cons, flatMap_nil, append_nil, names_seq]
    rw [declaredIn_append, addNew_append, outer.2.2, ← defines.symbols]
    exact inner.symbols j

/-- Finding the scopes of a marked tree. -/
theorem fold_sound (h : Marked n) : Sound n (n.fold algebra) := by
  induction h with
  | absent =>
    intro b n' b' hb h
    cases pure_ok.1 h
    exact ⟨Turn.refl hb, by simp, rfl, fun _ => rfl⟩
  | seq items ih =>
    intro b n' b' hb h
    rw [fold_seq] at h
    obtain ⟨ns', b₁, hm, hp⟩ := bind_ok.1 h
    cases pure_ok.1 hp
    simpa using mapM_fold_sound ih hb hm
  | name scope used =>
    intro b n' b' hb h
    rw [fold_node] at h
    obtain ⟨rfl, rfl⟩ := Prod.mk.inj (note_ok h)
    refine ⟨Turn.refl hb, fun o ho => ?_, by simp [noted, modifyMark, bare], fun j => ?_⟩
    rotate_left
    · simp [declaredIn, noted, modifyMark, used, addNew]
    simp only [noted, modifyMark, names_identifier, mem_singleton] at ho
    subst ho
    exact ⟨b'.current, rfl, hb.current, fun hc hi => nomatch (used.symm.trans hc).symm.trans hi⟩
  | declaration _ kind declared _ ih => exact declaration_sound kind declared ih
  | function _ declared declares _ ih => exact function_sound declared declares ih
  | other _ kind _ ih => exact other_sound kind ih

/-- The outermost scope, before anything is found. -/
def start : Binder := ⟨(({} : Scopes).new .outermost none none).2, 0⟩

theorem bind_eq_ok_iff : n.bind = .ok (tree, s) ↔ ∃ b, n.fold algebra start = .ok (tree, b) ∧ b.scopes = s := by
  change (n.fold algebra start >>= fun r => (pure (r.1, r.2.scopes) : Except TreeError _)) = _ ↔ _
  cases n.fold algebra start with
  | error e => exact ⟨nofun, nofun⟩
  | ok r =>
    obtain ⟨n', b⟩ := r
    change Except.ok (n', b.scopes) = _ ↔ _
    simp

/-- The scopes of a marked program: they are well built, every name is placed in one of them, the tree
differs by these notes only, and the symbols of a scope are the names declared in it. -/
theorem bind_spec (hm : Marked n) (h : n.bind = .ok (tree, s)) :
    Built s ∧ (∀ o ∈ tree.names, Placed s o) ∧ tree.names.map bare = n.names.map bare ∧
      ∀ j, keys (s.get j).symbols = addNew [] (declaredIn j tree.names) := by
  obtain ⟨b, hf, rfl⟩ := bind_eq_ok_iff.1 h
  have ready : Ready start := ⟨Built.outermost, by simp [start]⟩
  have out := fold_sound hm _ _ _ ready hf
  refine ⟨out.ready.built, out.placed, out.same, fun j => (out.symbols j).trans ?_⟩
  rw [Binder.keysOf, start, symbols_new]
  rfl

end JsMinify.Binding
