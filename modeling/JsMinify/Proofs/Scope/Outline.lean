import JsMinify.Proofs.Node.Functions
import JsMinify.Proofs.Parser.Uses
import JsMinify.Proofs.Parser.Shapes
import JsMinify.Proofs.Scope.Notes
import JsMinify.Proofs.Scope.References

/-!
# The scopes of a program and its functions

`Laid` is what finding the scopes of a tree does, told by places of the tree: one scope is made for each function, in
their order, and every name is noted with the scope of the innermost function around it. `lays_fold` proves it by
induction on the marks. For a whole program this is `Outline`, and `references_noted_iff` says which names are then noted
as references in which scopes.
-/

namespace JsMinify

open List Node

variable {m : Mark} {n tree bound : Node} {x : String} {i : Nat} {s : Scopes} {r : Unit × Binding.Binder}

/-- What is known of a scope when it is made. -/
def Scope.frame (c : Scope) : ScopeKind × Option String × Option Nat := (c.kind, c.name, c.parent)

namespace Binding

open Node Scopes

variable {b b' : Binder}

def Binder.count (b : Binder) : Nat := b.scopes.all.length

/-- No scope that was there has changed, but for its symbols. -/
def Frames (b b' : Binder) : Prop :=
  b.count ≤ b'.count ∧ ∀ j < b.count, (b'.scopes.get j).frame = (b.scopes.get j).frame

theorem Frames.refl (b : Binder) : Frames b b := ⟨Nat.le_refl _, fun _ _ => rfl⟩

theorem Frames.trans {b'' : Binder} (h : Frames b b') (h' : Frames b' b'') : Frames b b'' :=
  ⟨Nat.le_trans h.1 h'.1, fun j hj => (h'.2 j (Nat.lt_of_lt_of_le hj h.1)).trans (h.2 j hj)⟩

/-- The outcome of finding the scopes of a tree, by places: one scope for each function, in their order; every name is noted
with the scope it stands in; the names `ds` are declared in the current scope, and what a function declares in its own. -/
structure Laid (b b' : Binder) (n n' : Node) (ds : List String) : Prop where
  current : b'.current = b.current
  count : b'.count = b.count + n.functions.length
  frames : Frames b b'
  function : ∀ k f, n.functions[k]? = some f → ∃ g p, n.at? f = some g ∧ n.Stands b.current b.count f p ∧
    (b'.scopes.get (b.count + k)).frame = (.function, g.functionName, some p) ∧
    declaredIn (b.count + k) n'.names = g.locals.map (·.2)
  name : ∀ path x m ps, n.at? path = some (.node (.identifier x) m ps) → ∃ i, n.Stands b.current b.count path i ∧
    n'.at? path = some (.node (.identifier x) { m with scope := some i } ps)
  declared : ∀ j, j < b.count ∨ b'.count ≤ j → declaredIn j n'.names = if j = b.current then ds else []

/-- The same for trees that stand side by side. -/
inductive LaidAll : Binder → Binder → List Node → List Node → List String → Prop where
  | nil (b : Binder) : LaidAll b b [] [] []
  | cons {b b₁ b₂ : Binder} {n n' : Node} {ns ns' : List Node} {ds es : List String} (first : Laid b b₁ n n' ds)
      (rest : LaidAll b₁ b₂ ns ns' es) : LaidAll b b₂ (n :: ns) (n' :: ns') (ds ++ es)

namespace LaidAll

variable {ns ns' : List Node} {ds : List String} {p : Node}

theorem current (h : LaidAll b b' ns ns' ds) : b'.current = b.current := by
  induction h with
  | nil => rfl
  | cons first _ ih => exact ih.trans first.current

theorem count (h : LaidAll b b' ns ns' ds) : b'.count = b.count + (ns.flatMap functions).length := by
  induction h with
  | nil => rfl
  | cons first _ ih => rw [ih, first.count, flatMap_cons, length_append, Nat.add_assoc]

theorem frames (h : LaidAll b b' ns ns' ds) : Frames b b' := by
  induction h with
  | nil => exact Frames.refl _
  | cons first _ ih => exact first.frames.trans ih

theorem declared (h : LaidAll b b' ns ns' ds) (hc : b.current < b.count) {j : Nat} (hj : j < b.count ∨ b'.count ≤ j) :
    declaredIn j (ns'.flatMap names) = if j = b.current then ds else [] := by
  induction h with
  | nil => simp [declaredIn]
  | @cons b b₁ b₂ n n' ns ns' ds es first rest ih =>
    have h₁ := first.frames.1
    have h₂ := rest.frames.1
    rw [flatMap_cons, declaredIn_append, first.declared j (by omega),
      ih (by rw [first.current]; omega) (by omega), first.current]
    split <;> rfl

/-- One of the trees. -/
theorem get (h : LaidAll b b' ns ns' ds) (hc : b.current < b.count) (hi : ns[i]? = some n) :
    ∃ b₁ b₂ n' es, Laid b₁ b₂ n n' es ∧ ns'[i]? = some n' ∧ b₁.current = b.current ∧
      b₁.count = b.count + ((ns.take i).flatMap functions).length ∧ Frames b₂ b' ∧
      ∀ j, b₁.count ≤ j → j < b₂.count → declaredIn j (ns'.flatMap names) = declaredIn j n'.names := by
  induction h generalizing i with
  | nil => simp at hi
  | @cons b b₁ b₂ m m' ns ns' ds es first rest ih =>
    cases i with
    | zero =>
      cases hi
      refine ⟨b, b₁, m', ds, first, rfl, rfl, rfl, rest.frames, fun j hj hlt => ?_⟩
      rw [flatMap_cons, declaredIn_append,
        rest.declared (by rw [first.current]; exact Nat.lt_of_lt_of_le hc first.frames.1) (.inl hlt),
        if_neg (by rw [first.current]; omega), append_nil]
    | succ i =>
      have hc₁ : b₁.current < b₁.count := by
        rw [first.current]
        exact Nat.lt_of_lt_of_le hc first.frames.1
      obtain ⟨c₁, c₂, n', es, laid, hn', hcur, hcount, hframes, hdecl⟩ := ih hc₁ hi
      refine ⟨c₁, c₂, n', es, laid, hn', hcur.trans first.current, ?_, hframes, fun j hj hlt => ?_⟩
      · rw [hcount, first.count, take_succ_cons, flatMap_cons, length_append, Nat.add_assoc]
      · have hle := first.frames.1
        rw [flatMap_cons, declaredIn_append, first.declared j (.inr (by omega)), if_neg (by omega), nil_append, hdecl j hj hlt]

/-- A function in one of the trees. -/
theorem function (h : LaidAll b b' ns ns' ds) (hc : b.current < b.count) {l : Nat} {q : Path}
    (hp : ns[i]? = some p) (hl : p.functions[l]? = some q) :
    ∃ g o, p.at? q = some g ∧ p.Stands b.current (b.count + ((ns.take i).flatMap functions).length) q o ∧
      (b'.scopes.get (b.count + ((ns.take i).flatMap functions).length + l)).frame = (.function, g.functionName, some o) ∧
      declaredIn (b.count + ((ns.take i).flatMap functions).length + l) (ns'.flatMap names) = g.locals.map (·.2) := by
  obtain ⟨b₁, b₂, p', es, laid, -, hcur, hcnt, hframes, hdecl⟩ := h.get hc hp
  obtain ⟨g, o, hg, hstands, hframe, hlocals⟩ := laid.function l q hl
  have hlt : b₁.count + l < b₂.count := by
    rw [laid.count]
    exact Nat.add_lt_add_left (List.getElem?_eq_some_iff.1 hl).1 _
  rw [← hcur, ← hcnt]
  exact ⟨g, o, hg, hstands, (hframes.2 _ hlt).trans hframe, (hdecl _ (Nat.le_add_right ..) hlt).trans hlocals⟩

/-- A name in one of the trees. -/
theorem name (h : LaidAll b b' ns ns' ds) (hc : b.current < b.count) {path : Path} {ps : List Node}
    (hp : ns[i]? = some p) (hx : p.at? path = some (.node (.identifier x) m ps)) :
    ∃ o p', ns'[i]? = some p' ∧ p.Stands b.current (b.count + ((ns.take i).flatMap functions).length) path o ∧
      p'.at? path = some (.node (.identifier x) { m with scope := some o } ps) := by
  obtain ⟨b₁, b₂, p', es, laid, hp', hcur, hcnt, -, -⟩ := h.get hc hp
  obtain ⟨o, hstands, hat⟩ := laid.name path x m ps hx
  rw [← hcur, ← hcnt]
  exact ⟨o, p', hp', hstands, hat⟩

end LaidAll

/-! ## Nodes -/

theorem length_functions (n : Node) :
    n.functions.length = (ownPath n.isFunction).length + (n.inner.flatMap functions).length := by
  rw [functions_eq, length_append]
  congr 1
  generalize 0 = i
  induction n.inner generalizing i with
  | nil => rfl
  | cons p ps ih => simp only [map_cons, spread, length_append, length_map, flatMap_cons, ih]

/-- A node that is no function and no name, from its parts. -/
theorem Laid.ofInner {n' : Node} {ds : List String} (hc : b.current < b.count) (hf : n.isFunction = false)
    (hn : ∀ x m ps, n ≠ .node (.identifier x) m ps) (hnames : n'.names = n'.inner.flatMap names)
    (h : LaidAll b b' n.inner n'.inner ds) : Laid b b' n n' ds := by
  have hbefore : ∀ i, n.functionsBefore i = ((n.inner.take i).flatMap functions).length := by
    intro i
    rw [functionsBefore, hf]
    exact Nat.zero_add _
  refine ⟨h.current, ?_, h.frames, fun k f hk => ?_, fun path x m ps hp => ?_, fun j hj => ?_⟩
  · rw [h.count, length_functions, hf]
    exact congrArg (b.count + ·) (Nat.zero_add _).symm
  · rcases getElem?_functions.1 hk with ⟨hfun, -, -⟩ | ⟨i, p, l, q, hp, hl, rfl, rfl⟩
    · rw [hf] at hfun
      cases hfun
    · obtain ⟨g, o, hg, hstands, hframe, hlocals⟩ := h.function hc hp hl
      rw [hnames, hbefore, ← Nat.add_assoc]
      refine ⟨g, o, by rw [at?_cons, hp]; exact hg, stands_cons hp ?_, hframe, hlocals⟩
      rw [hf, hbefore]
      exact hstands
  · cases path with
    | nil => exact absurd (Option.some.inj hp) (hn x m ps)
    | cons i path =>
      obtain ⟨p, hi, hp⟩ := at?_cons_iff.1 hp
      obtain ⟨o, p', hp', hstands, hat⟩ := h.name hc hi hp
      refine ⟨o, stands_cons hi ?_, by rw [at?_cons, hp']; exact hat⟩
      rw [hf, hbefore]
      exact hstands
  · rw [hnames]
    exact h.declared hc hj

/-- A name. -/
theorem Laid.ofName (hcur : b'.current = b.current) (hcount : b'.count = b.count) (hframes : Frames b b')
    (x : String) (m : Mark) :
    Laid b b' (.node (.identifier x) m []) (noted b.current (.node (.identifier x) m []))
      (if m.candidate && !m.inExpr then [x] else []) := by
  refine ⟨hcur, hcount, hframes, fun k f hk => ?_, fun path y m' ps hp => ?_, fun j hj => ?_⟩
  · cases hk
  · cases path with
    | nil =>
      cases Option.some.inj hp
      exact ⟨b.current, stands_nil .., rfl⟩
    | cons i path => simp [at?] at hp
  · simp only [noted, modifyMark, names_identifier, declaredIn, filter_cons, filter_nil]
    by_cases hj : b.current = j
    · cases m.candidate && !m.inExpr <;> simp [hj]
    · simp [hj, Ne.symm hj]

/-- A name that is declared. -/
theorem Laid.ofDeclared (hcur : b'.current = b.current) (hcount : b'.count = b.count) (hframes : Frames b b')
    (hn : DeclaredName n) (d : Declarator) : Laid b b' n (noted b.current n) ((declaredAs d n).map (·.2)) := by
  obtain @⟨x, m, -, candidate, inExpr⟩ := hn
  have h := Laid.ofName hcur hcount hframes x m
  rw [candidate, inExpr] at h
  exact h

variable {form : FunctionForm} {name : Node}

/-- A function: its name, and its parameters and its body in a scope of their own. -/
theorem Laid.ofFunction {b₁ b₂ : Binder} {name' : Node} {parts parts' : List Node}
    {ds es : List String} (hc : b.current < b.count) (hname : Laid b b name name' ds) (hnone : name.functions = [])
    (hcur : b₁.current = b.count) (hcount : b₁.count = b.count + 1) (hframes : Frames b b₁)
    (hframe : (b₁.scopes.get b.count).frame =
      (.function, (Node.node (.function form) m (name :: parts)).functionName, some b.current))
    (hlocals : es = (Node.node (.function form) m (name :: parts)).locals.map (·.2)) (h : LaidAll b₁ b₂ parts parts' es) :
    Laid b { b₂ with current := b.current } (.node (.function form) m (name :: parts))
      (.node (.function form) m (name' :: parts')) ds := by
  have hc₁ : b₁.current < b₁.count := by omega
  have hnames : (Node.node (.function form) m (name' :: parts')).names = name'.names ++ parts'.flatMap names :=
    names_node (by simp) _ _
  have hbefore : ∀ i, (Node.node (.function form) m (name :: parts)).functionsBefore (i + 1) =
      1 + ((parts.take i).flatMap functions).length := by
    intro i
    rw [functionsBefore, Node.inner, take_succ_cons, flatMap_cons, hnone]
    rfl
  refine ⟨rfl, ?_, hframes.trans h.frames, fun k f hk => ?_, fun path x m' ps hp => ?_, fun j hj => ?_⟩
  · rw [length_functions, Node.inner, flatMap_cons, hnone]
    refine h.count.trans ?_
    rw [hcount, Nat.add_assoc]
    rfl
  · rcases getElem?_functions.1 hk with ⟨-, rfl, rfl⟩ | ⟨i, p, l, q, hp, hl, rfl, rfl⟩
    · refine ⟨_, b.current, rfl, stands_nil .., ?_, ?_⟩
      · exact (h.frames.2 b.count (by omega)).trans hframe
      · rw [Nat.add_zero, hnames, declaredIn_append, hname.declared _ (.inr (Nat.le_refl _)), if_neg (by omega),
          h.declared hc₁ (.inl (by omega)), if_pos hcur.symm, hlocals, nil_append]
    · cases i with
      | zero =>
        cases hp
        rw [hnone] at hl
        cases hl
      | succ i =>
        obtain ⟨g, o, hg, hstands, hfun, hloc⟩ := h.function hc₁ hp hl
        rw [hbefore, ← Nat.add_assoc, ← Nat.add_assoc, ← hcount]
        refine ⟨g, o, by rw [at?_cons, hp]; exact hg, stands_cons hp ?_, hfun, ?_⟩
        · rw [hbefore, ← Nat.add_assoc, ← hcount, ← hcur]
          exact hstands
        · rw [hnames, declaredIn_append, hname.declared _ (.inr (by omega)), if_neg (by omega), nil_append]
          exact hloc
  · cases path with
    | nil => cases Option.some.inj hp
    | cons i path =>
      obtain ⟨p, hi, hx⟩ := at?_cons_iff.1 hp
      cases i with
      | zero =>
        obtain rfl := Option.some.inj hi
        obtain ⟨o, hstands, hat⟩ := hname.name path x m' ps hx
        exact ⟨o, stands_cons hi (hstands.of_functions_nil hnone _), hat⟩
      | succ i =>
        obtain ⟨o, p', hp', hstands, hat⟩ := h.name hc₁ hi hx
        refine ⟨o, stands_cons hi ?_, by rw [at?_cons]; exact (congrArg (·.bind (·.at? path)) hp').trans hat⟩
        rw [hbefore, ← Nat.add_assoc, ← hcount, ← hcur]
        exact hstands
  · have hle := h.frames.1
    change j < b.count ∨ b₂.count ≤ j at hj
    rw [hnames, declaredIn_append, hname.declared _ (by omega), h.declared hc₁ (by omega), if_neg (c := j = b₁.current) (by omega),
      append_nil]

/-! ## Computations -/

/-- A computation makes symbols only. -/
structure Keeps (b b' : Binder) : Prop where
  current : b'.current = b.current
  count : b'.count = b.count
  frames : Frames b b'

theorem keeps_defineVar (h : defineVar x b = .ok r) : Keeps b r.2 := by
  cases h
  refine ⟨rfl, length_define .., Nat.le_of_eq (length_define ..).symm, fun j _ => ?_⟩
  exact field_define _ _ _ _ Scope.frame (fun _ _ => rfl) (fun _ _ => rfl) j

theorem keeps_defineNewVar (h : defineNewVar x b = .ok r) : Keeps b r.2 := by
  rw [defineNewVar_eq] at h
  split at h
  · cases h
    exact ⟨rfl, rfl, Frames.refl b⟩
  · exact keeps_defineVar h

/-- The scope that is made for a function. -/
theorem frame_enter {x : Option String} (h : enter x b = .ok r) :
    r.2.current = b.count ∧ r.2.count = b.count + 1 ∧ Frames b r.2 ∧
      (r.2.scopes.get b.count).frame = (.function, x, some b.current) := by
  have hnew : ∀ j, ((b.scopes.new .function x (some b.current)).2.get j).frame =
      if j = b.count then (.function, x, some b.current) else (b.scopes.get j).frame := fun j =>
    (congrArg Scope.frame (get_new ..)).trans (apply_ite Scope.frame _ _ _)
  obtain ⟨t, ht, hcount, hframe⟩ : ∃ t : Scopes, enter x b = .ok ((), ⟨t, b.count⟩) ∧ t.all.length = b.count + 1 ∧
      ∀ j, (t.get j).frame = ((b.scopes.new .function x (some b.current)).2.get j).frame := by
    cases x with
    | none => exact ⟨_, rfl, length_new .., fun _ => rfl⟩
    | some x =>
      refine ⟨_, rfl, (length_define ..).trans (length_new ..), ?_⟩
      exact field_define _ _ _ _ Scope.frame (fun _ _ => rfl) (fun _ _ => rfl)
  cases ht.symm.trans h
  refine ⟨rfl, hcount, ⟨Nat.le_trans (Nat.le_succ _) (Nat.le_of_eq hcount.symm), fun j hj => ?_⟩, ?_⟩
  · exact (hframe j).trans ((hnew j).trans (if_neg (Nat.ne_of_lt hj)))
  · exact (hframe b.count).trans ((hnew b.count).trans (if_pos rfl))

/-- Finding the scopes of a tree lays them out by its places. -/
def Lays (n : Node) (x : Bind Node) (ds : List String) : Prop :=
  ∀ b n' b', Ready b → x b = .ok (n', b') → Ready b' ∧ Laid b b' n n' ds

theorem mapM_laid {γ : Type} (node : γ → Node) {ds : γ → List String} {xs : List γ} {f : γ → Bind Node}
    (h : ∀ x ∈ xs, Lays (node x) (f x) (ds x)) {ns' : List Node} (hb : Ready b)
    (hr : xs.mapM f b = .ok (ns', b')) : Ready b' ∧ LaidAll b b' (xs.map node) ns' (xs.flatMap ds) := by
  induction xs generalizing b ns' with
  | nil =>
    obtain ⟨rfl, rfl⟩ := Prod.mk.injEq .. ▸ pure_ok.1 (show (pure [] : Bind _) b = _ from hr)
    exact ⟨hb, .nil b'⟩
  | cons x xs ih =>
    obtain ⟨n, b₁, ns, b₂, hx, hxs, ⟨⟩⟩ := mapM_cons_ok hr
    obtain ⟨ready, first⟩ := h x mem_cons_self b n b₁ hb hx
    obtain ⟨ready', rest⟩ := ih (fun y hy => h y (mem_cons_of_mem _ hy)) ready hxs
    exact ⟨ready', .cons first rest⟩

theorem lays_parameter (hn : DeclaredName n) : Lays n (parameter n) ((declaredAs .parameter n).map (·.2)) := by
  intro b n' b' hb h
  refine ⟨(parameter_sound hn b n' b' hb h).ready, ?_⟩
  obtain ⟨x, b₁, hx, h₁⟩ := bind_ok.1 h
  obtain ⟨-, rfl⟩ := word_ok hx
  obtain ⟨u, b₂, hd, h₂⟩ := bind_ok.1 h₁
  obtain ⟨rfl, rfl⟩ := Prod.mk.injEq .. ▸ note_ok h₂
  have keeps := keeps_defineVar hd
  rw [keeps.current]
  exact .ofDeclared keeps.current keeps.count keeps.frames hn .parameter

theorem mapM_fold_laid {ns ns' : List Node} (h : ∀ n ∈ ns, Lays n (n.fold algebra) (n.declares.map (·.2)))
    (hb : Ready b) (hr : ns.mapM (fold algebra) b = .ok (ns', b')) :
    Ready b' ∧ LaidAll b b' ns ns' ((ns.flatMap declares).map (·.2)) := by
  have all := mapM_laid id h hb hr
  rwa [map_id, ← map_flatMap] at all

theorem lays_declaration {k : Kind} {value : Node} (kind : k = .varDecl ∨ k = .catchClause)
    (declared : DeclaredName name) (ih : Lays value (value.fold algebra) (value.declares.map (·.2))) :
    Lays (.node k m [name, value]) ((Node.node k m [name, value]).fold algebra)
      ((Node.node k m [name, value]).declares.map (·.2)) := by
  intro b n' b' hb h
  obtain ⟨x, u, b₁, v, b₂, hw, hd, hv, hr⟩ := declaration_ok kind h
  cases hr
  have keeps := keeps_defineNewVar hd
  obtain ⟨ready, second⟩ := ih b₁ v b' (defineNewVar_ok hb hd).1.ready hv
  have first := fun d => Laid.ofDeclared keeps.current keeps.count keeps.frames declared d
  have parts := fun d => LaidAll.cons (first d) (.cons second (.nil b'))
  rw [keeps.current]
  refine ⟨ready, ?_⟩
  rcases kind with rfl | rfl
  · refine .ofInner hb.current rfl (by simp) (names_node (by simp) ..) ?_
    rw [declares_varDecl, map_append, ← append_nil (map _ value.declares)]
    exact parts .variable
  · refine .ofInner hb.current rfl (by simp) (names_node (by simp) ..) ?_
    rw [declares_catchClause, map_append, ← append_nil (map _ value.declares)]
    exact parts .caught

theorem lays_function {params body : List Node}
    (hm : Marked (.node (.function form) m [name, .seq params, .seq body])) (declared : name = .absent ∨ DeclaredName name)
    (declares : ∀ p ∈ params, DeclaredName p) (ih : ∀ n ∈ body, Lays n (n.fold algebra) (n.declares.map (·.2))) :
    Lays (.node (.function form) m [name, .seq params, .seq body])
      ((Node.node (.function form) m [name, .seq params, .seq body]).fold algebra)
      ((Node.node (.function form) m [name, .seq params, .seq body]).declares.map (·.2)) := by
  intro b n' b' hb h
  have sound := fold_sound hm b n' b' hb h
  obtain ⟨ident, unnamed, named, hf⟩ := function_ok h
  obtain ⟨u, b₁, ps, b₂, bs, b₃, he, hps, hbs, hr⟩ := functionParts_ok hf
  cases hr
  obtain ⟨hcur, hcount, hframes, hframe⟩ := frame_enter he
  obtain ⟨ready₂, params'⟩ := mapM_laid id (fun p hp => lays_parameter (declares p hp)) (enter_ok hb he).1 hps
  rw [mapM_map] at hbs
  obtain ⟨-, body'⟩ := mapM_fold_laid ih ready₂ hbs
  rw [map_id, ← map_flatMap] at params'
  have hparams : Laid b₁ b₂ (.seq params) (.seq ps) _ :=
    .ofInner (enter_ok hb he).1.current rfl (by simp) (names_seq _) params'
  have hbody : Laid b₂ b₃ (.seq body) (.seq bs) _ := .ofInner ready₂.current rfl (by simp) (names_seq _) body'
  have hname : Laid b b name (noted b.current name) ((declaredAs (.function form) name).map (·.2)) ∧
      name.functions = [] ∧ (Node.node (.function form) m [name, .seq params, .seq body]).functionName = ident := by
    rcases declared with rfl | hn
    · exact ⟨.ofInner hb.current rfl (by simp) rfl (.nil b), rfl, (unnamed rfl).symm⟩
    · refine ⟨.ofDeclared rfl rfl (Frames.refl b) hn _, ?_⟩
      obtain ⟨-⟩ := hn
      obtain ⟨x, hx, rfl⟩ := named rfl
      exact ⟨rfl, congrArg some (Except.ok.inj hx)⟩
  refine ⟨sound.ready, ?_⟩
  rw [declares_function]
  refine .ofFunction hb.current hname.1 hname.2.1 hcur hcount hframes (hname.2.2 ▸ hframe) ?_
    (.cons hparams (.cons hbody (.nil b₃)))
  rw [locals, map_append, append_nil]
  rfl

/-- Finding the scopes of a marked tree. -/
theorem lays_fold (hm : Marked n) : Lays n (n.fold algebra) (n.declares.map (·.2)) := by
  induction hm with
  | absent =>
    intro b n' b' hb h
    obtain ⟨rfl, rfl⟩ := Prod.mk.inj (pure_ok.1 h)
    exact ⟨hb, .ofInner hb.current rfl (by simp) rfl (.nil b')⟩
  | @seq ns items ih =>
    intro b n' b' hb h
    rw [fold_seq] at h
    obtain ⟨ns', b₁, hmap, hp⟩ := bind_ok.1 h
    cases pure_ok.1 hp
    rw [mapM_map] at hmap
    obtain ⟨ready, all⟩ := mapM_fold_laid ih hb hmap
    rw [declares_seq]
    exact ⟨ready, .ofInner hb.current rfl (by simp) (names_seq _) all⟩
  | @name x m scope used =>
    intro b n' b' hb h
    rw [fold_node] at h
    obtain ⟨rfl, rfl⟩ := Prod.mk.inj (note_ok h)
    have laid := Laid.ofName rfl rfl (Frames.refl b') x m
    rw [used, Bool.and_not_self] at laid
    exact ⟨hb, laid⟩
  | declaration _ kind declared _ ih => exact lays_declaration kind declared ih
  | function scope declared declares rest ih =>
    exact lays_function (.function scope declared declares rest) declared declares ih
  | @other k m parts scope kind rest ih =>
    intro b n' b' hb h
    rw [fold_node] at h
    obtain ⟨ns, b₁, hmap, hr⟩ := node_plain_ok kind h
    cases hr
    rw [mapM_map] at hmap
    obtain ⟨ready, all⟩ := mapM_fold_laid ih hb hmap
    have hk : ∀ x, k ≠ .identifier x := by
      rintro x rfl
      cases kind
    refine ⟨ready, .ofInner hb.current (isFunction_of_bindsNames kind ..) (fun x m ps he => ?_) (names_node hk ..) ?_⟩
    · cases he
      exact hk x rfl
    · rw [declares_node kind]
      exact all

end Binding

open Binding Node Scopes

/-- The scopes of a program as its functions lay them out. -/
structure Outline (tree bound : Node) (s : Scopes) : Prop where
  sorted : tree.functions.Pairwise (· < ·)
  listed : ∀ f, f ∈ tree.functions ↔ ∃ g, tree.at? f = some g ∧ g.isFunction = true
  count : s.all.length = tree.functions.length + 1
  outermost : (s.get 0).frame = (.outermost, none, none)
  function : ∀ f g, tree.at? f = some g → g.isFunction = true →
    (s.get (tree.numberOf f)).frame = (.function, g.functionName, some (tree.scopeOf f))
  children : ∀ i, s.children i = (tree.functions.filter fun f => tree.scopeOf f = i).map tree.numberOf
  name : ∀ path x m ps, tree.at? path = some (.node (.identifier x) m ps) →
    bound.at? path = some (.node (.identifier x) { m with scope := some (tree.scopeOf path) } ps)
  globals : keys (s.get 0).symbols = addNew [] (tree.declares.map (·.2))
  locals : ∀ f g, tree.at? f = some g → g.isFunction = true →
    keys (s.get (tree.numberOf f)).symbols = addNew [] (g.locals.map (·.2))

theorem numbers_eq (n : Node) : n.functions.map n.numberOf = range' 1 n.functions.length := by
  refine ext_getElem (by simp) fun k hk _ => ?_
  rw [length_map] at hk
  rw [getElem_map, getElem_range', numberOf_eq (getElem?_eq_getElem hk)]
  omega

/-- Finding the scopes of a marked program. -/
theorem outline_of_bind (hm : Marked tree) (h : tree.bind = .ok (bound, s)) : Outline tree bound s := by
  obtain ⟨-, -, -, symbols⟩ := bind_spec hm h
  obtain ⟨b, hf, rfl⟩ := bind_eq_ok_iff.1 h
  have ready : Ready start := ⟨Built.outermost, by simp [start]⟩
  obtain ⟨-, laid⟩ := lays_fold hm _ _ _ ready hf
  have hstart : start.count = 1 := rfl
  have hfunction : ∀ f g, tree.at? f = some g → g.isFunction →
      (b.scopes.get (tree.numberOf f)).frame = (.function, g.functionName, some (tree.scopeOf f)) ∧
        declaredIn (tree.numberOf f) bound.names = g.locals.map (·.2) := by
    intro f g hg hfun
    obtain ⟨k, hk⟩ := mem_iff_getElem?.1 (mem_functions.2 ⟨g, hg, hfun⟩)
    obtain ⟨g', p, hg', hstands, hframe, hlocals⟩ := laid.function k f hk
    cases hg.symm.trans hg'
    rw [hstart, Nat.add_comm 1 k, ← numberOf_eq hk] at hframe hlocals
    exact ⟨hstands.eq_scopeOf ▸ hframe, hlocals⟩
  have hcount : b.scopes.all.length = tree.functions.length + 1 := by
    rw [← Nat.add_comm 1]
    exact laid.count
  have houter := laid.frames.2 0 (by decide)
  refine ⟨functions_sorted tree, fun f => mem_functions, hcount, houter, fun f g hg hfun => (hfunction f g hg hfun).1,
    fun i => ?_, fun path x m ps hx => ?_, ?_, fun f g hg hfun => ?_⟩
  · have hrange : range b.scopes.all.length = 0 :: tree.functions.map tree.numberOf := by
      rw [hcount, numbers_eq, range_eq_range', range'_succ]
    have hzero : ¬(b.scopes.get 0).parent = some i := by
      rw [show (b.scopes.get 0).parent = none from congrArg (·.2.2) houter]
      simp
    rw [Scopes.children, hrange, filter_cons_of_neg (by simpa using hzero), filter_map]
    refine congrArg _ (filter_congr fun f hmem => ?_)
    obtain ⟨g, hg, hfun⟩ := mem_functions.1 hmem
    have hparent : (b.scopes.get (tree.numberOf f)).parent = some (tree.scopeOf f) :=
      congrArg (·.2.2) (hfunction f g hg hfun).1
    simp [hparent]
  · obtain ⟨o, hstands, hat⟩ := laid.name path x m ps hx
    rwa [hstands.eq_scopeOf] at hat
  · rw [symbols, laid.declared 0 (.inl (by decide))]
    rfl
  · rw [symbols, (hfunction f g hg hfun).2]

/-- The scopes of a program follow its functions: there is one for each, numbered in the order of the text, that lies in the
scope around the function and has its parameters and then what its body declares as symbols; every name is noted with
the scope of the innermost function around it. The search ends in the outermost scope. -/
theorem scopes_follow_functions {text : String} {tree : Node} {p : Parser} (h : parse text = (.ok tree, p))
    (hb : tree.hasBodies = true) :
    ∃ bound b, tree.fold Binding.algebra Binding.start = .ok (bound, b) ∧ b.current = 0 ∧
      tree.bind = .ok (bound, b.scopes) ∧ Outline tree bound b.scopes ∧
      ∀ i j, j ∈ b.scopes.children i ↔ j < b.scopes.all.length ∧ (b.scopes.get j).parent = some i := by
  have hm := parse_marked h
  obtain ⟨⟨bound, s⟩, hbind⟩ := (bind_ok_iff hm).2 (isBindable_of_hasBodies (parse_formed h) hb)
  obtain ⟨b, hf, rfl⟩ := bind_eq_ok_iff.1 hbind
  have ready : Ready start := ⟨Built.outermost, by simp [start]⟩
  refine ⟨bound, b, hf, (lays_fold hm _ _ _ ready hf).2.current, hbind, outline_of_bind hm hbind, fun i j => ?_⟩
  simp [Scopes.children]

/-- A function in a `catch` clause: its name and the caught one are symbols of the function around it. -/
theorem scopes_of_nested_functions : ∃ tree p bound, ∃ s : Scopes,
      parse "function f(a,b){try{a();}catch(e){b=function g(a){return b+a;};var a;}}" = (.ok tree, p) ∧
      tree.hasBodies = true ∧ tree.bind = .ok (bound, s) ∧ tree.functions = [[0], [0, 2, 0, 1, 1, 0, 0, 1]] ∧
      s.children 0 = [1] ∧ s.children 1 = [2] ∧ keys (s.get 1).symbols = ["a", "b", "e", "g"] := by
  obtain ⟨tree, p, hparse, htest⟩ := exists_of_test "function f(a,b){try{a();}catch(e){b=function g(a){return b+a;};var a;}}"
    (fun tree => tree.hasBodies && tree.functions = [[0], [0, 2, 0, 1, 1, 0, 0, 1]] &&
      tree.functions.map tree.scopeOf = [0, 1] && tree.functions.map tree.numberOf = [1, 2] &&
      (tree.at? [0]).any fun g => g.isFunction && addNew [] (g.locals.map (·.2)) = ["a", "b", "e", "g"])
    (by decide +kernel)
  simp only [Bool.and_eq_true, decide_eq_true_eq, Option.any_eq_true] at htest
  obtain ⟨⟨⟨⟨hbodies, hfunctions⟩, hscopes⟩, hnumbers⟩, g, hg, hfun, hlocals⟩ := htest
  obtain ⟨bound, b, -, -, hbind, outline, -⟩ := scopes_follow_functions hparse hbodies
  simp only [hfunctions, List.map_cons, List.map_nil, List.cons.injEq, and_true] at hscopes hnumbers
  refine ⟨tree, p, bound, b.scopes, hparse, hbodies, hbind, hfunctions, ?_, ?_, ?_⟩
  · rw [outline.children, hfunctions]
    simp [hscopes, hnumbers]
  · rw [outline.children, hfunctions]
    simp [hscopes, hnumbers]
  · rw [← hnumbers.1, outline.locals [0] g hg hfun, hlocals]

/-! ## References -/

namespace Scopes

/-- A reference finds the scope that defines its name around it. -/
theorem Homed.refer_ok (h : s.Homed) (i : Nat) (x : String) : (s.refer i x).1 = .ok () := by
  unfold refer
  rw [h.definer_eq]
  cases hr : s.resolve i x with
  | none => rfl
  | some r =>
    obtain ⟨a, b, hc, -, -⟩ := resolve_eq_some_iff.1 hr
    have hmem : (s.chain i).contains r.1 := by simp [hc]
    simp only [Option.map_some, hmem, if_true]

end Scopes

/-- The names of a program with their scopes are those of the program at their places. -/
theorem Outline.mem_names_iff (hm : Marked tree) (hb : tree.bind = .ok (bound, s)) :
    (x, m) ∈ bound.names ↔ ∃ path m' ps, tree.at? path = some (.node (.identifier x) m' ps) ∧
      m = { m' with scope := some (tree.scopeOf path) } := by
  have outline := outline_of_bind hm hb
  obtain ⟨hforget, -⟩ := bind_blank hm hb
  have hleaf : bound.every isLeafName := by
    rw [← isLeafName_forgetScopes, hforget]
    exact hm.isLeafName
  rw [Node.mem_names_iff hleaf]
  constructor
  · rintro ⟨path, ps, hat⟩
    obtain ⟨ps', hplain⟩ : ∃ ps', tree.at? path = some (.node (.identifier x) { m with scope := none } ps') := by
      rw [← hforget, forgetScopes_eq_relabel, at?_relabel, hat, Option.map_some, relabel_node]
      exact ⟨_, rfl⟩
    have hnoted := Option.some.inj ((outline.name _ _ _ _ hplain).symm.trans hat)
    rw [node.injEq] at hnoted
    exact ⟨path, _, ps', hplain, hnoted.2.1.symm⟩
  · rintro ⟨path, m', ps, hat, rfl⟩
    exact ⟨path, ps, outline.name path x m' ps hat⟩

/-- Exactly the references that lead past a scope are noted in it. A name is noted in a scope, with the scope that
defines it, exactly if it stands as an expression in that scope or further in and leads to a symbol of the other one,
which is the same scope or one around it; and then it leads there from the scope itself. No reference fails. -/
theorem references_noted_iff {text : String} {tree : Node} {p : Parser} (h : parse text = (.ok tree, p))
    (hb : tree.hasBodies = true) :
    ∃ bound s, tree.bind = .ok (bound, s) ∧ (∀ t, Alike s t → ∀ i x, (t.refer i x).1 = .ok ()) ∧
      ∀ j x e, (((s.referAll bound).get j).refs.lookup x = some e ↔
          ∃ path m ps sym, tree.at? path = some (.node (.identifier x) m ps) ∧ m.inExpr = true ∧
            j ∈ s.chain (tree.scopeOf path) ∧ s.resolve (tree.scopeOf path) x = some (e, sym) ∧ e ∈ s.chain j) ∧
        (((s.referAll bound).get j).refs.lookup x = some e → ∃ sym, s.resolve j x = some (e, sym)) := by
  have hm := parse_marked h
  obtain ⟨⟨bound, s⟩, hbind⟩ := (bind_ok_iff hm).2 (isBindable_of_hasBodies (parse_formed h) hb)
  obtain ⟨built, placed, -, -⟩ := bind_spec hm hbind
  obtain ⟨-, -, refs⟩ := referAll_spec built placed
  refine ⟨bound, s, hbind, fun t ht i x => (ht.homed built.home).refer_ok i x, fun j x e => ⟨?_, fun he => ?_⟩⟩
  · rw [refs]
    constructor
    · rintro ⟨⟨y, m⟩, ho, rfl, hexpr, i, sym, hi, hr, hj, he⟩
      obtain ⟨path, m', ps, hat, rfl⟩ := (Outline.mem_names_iff hm hbind).1 ho
      cases hi
      exact ⟨path, m', ps, sym, hat, hexpr, hj, hr, he⟩
    · rintro ⟨path, m, ps, sym, hat, hexpr, hj, hr, he⟩
      exact ⟨_, (Outline.mem_names_iff hm hbind).2 ⟨path, m, ps, hat, rfl⟩, rfl, hexpr, _, sym, rfl, hr, hj, he⟩
  · obtain ⟨o, ho, rfl, href⟩ := (refs j x e).1 he
    refine (href.resolve_eq built.toNested fun i hi => ?_).2
    obtain ⟨i', hi', hlt, -⟩ := placed o ho
    cases hi.symm.trans hi'
    exact hlt

/-- A reference from a function inside another one, which lies on the way to the outermost scope. -/
theorem reference_noted_on_way :
    ∃ tree p bound, ∃ s : Scopes, parse "var a;function f(){return function(){return a;};}" = (.ok tree, p) ∧
      tree.hasBodies = true ∧ tree.bind = .ok (bound, s) ∧ ((s.referAll bound).get 1).refs.lookup "a" = some 0 ∧
      (∃ path m ps sym, tree.at? path = some (.node (.identifier "a") m ps) ∧ m.inExpr = true ∧
        1 ∈ s.chain (tree.scopeOf path) ∧ s.resolve (tree.scopeOf path) "a" = some (0, sym) ∧ 0 ∈ s.chain 1) ∧
      ∃ sym, s.resolve 1 "a" = some (0, sym) := by
  obtain ⟨tree, p, hparse, htest⟩ := exists_of_test "var a;function f(){return function(){return a;};}"
    (fun tree => tree.hasBodies &&
      tree.bind.toOption.any fun r => ((r.2.referAll r.1).get 1).refs.lookup "a" = some 0) (by decide +kernel)
  simp only [Bool.and_eq_true, decide_eq_true_eq, Option.any_eq_true] at htest
  obtain ⟨hbodies, r, hr, hnoted⟩ := htest
  obtain ⟨bound, s, hbind, -, hrefs⟩ := references_noted_iff hparse hbodies
  rw [hbind] at hr
  cases hr
  obtain ⟨hiff, hresolve⟩ := hrefs 1 "a" 0
  exact ⟨tree, p, bound, s, hparse, hbodies, hbind, hnoted, hiff.1 hnoted, hresolve hnoted⟩

end JsMinify
