import JsMinify.Proofs.Node.Relabel
import JsMinify.Proofs.Scope.Binding

/-!
# The notes on a tree

Finding the scopes of a marked tree fails exactly if something is absent where statements are looked for
(`bind_ok_iff`), and what it gives is the same tree with notes (`forgetScopes_of_bind`). The notes, and how the scopes
lie in each other, do not depend on the names: `bind_blank` compares a tree with the same tree without its names.
-/

namespace JsMinify

open List Bool Node

variable {b c : Binding.Binder} {n : Node} {r' : List Node × Binding.Binder} {r : Unit × Binding.Binder} {ns : List Node} {s : Scopes}

/-- Something is absent where the statements of a node are looked for. -/
def Node.lacksStatements : Node → Bool
  | .node .getter _ parts | .node .catchClause _ parts => (parts.getD 1 .absent).isAbsent
  | .node .setter _ parts => (parts.getD 2 .absent).isAbsent
  | .node .finallyClause _ parts => (parts.getD 0 .absent).isAbsent
  | _ => false

/-- An accessor without statements. -/
def Node.lacksBody : Node → Bool
  | .node .getter _ parts => (parts.getD 1 .absent).isAbsent
  | .node .setter _ parts => (parts.getD 2 .absent).isAbsent
  | _ => false

/-- Every accessor of the tree has statements. -/
def Node.hasBodies (n : Node) : Bool := n.every fun n => !n.lacksBody

/-- No node of the tree lacks its statements. -/
def Node.isBindable (n : Node) : Bool := n.every fun n => !n.lacksStatements

open Node

@[simp] theorem Node.isBindable_absent : absent.isBindable := rfl

@[simp] theorem Node.isBindable_seq (ns : List Node) : (seq ns).isBindable = ns.all isBindable := every_seq _ ns

theorem Node.isBindable_node (k : Kind) (m : Mark) (parts : List Node) :
    (Node.node k m parts).isBindable = (!(Node.node k m parts).lacksStatements && parts.all isBindable) :=
  every_node _ k m parts

/-- A tree of the right shape lacks statements in its accessors only. -/
theorem isBindable_of_hasBodies {r : Role} (hf : Formed r n) (h : n.hasBodies) : n.isBindable := by
  induction hf with
  | absent => rfl
  | seq list items ih =>
    rw [hasBodies, every_seq, and_eq_true, all_eq_true] at h
    rw [isBindable_seq, all_eq_true]
    exact fun x hx => ih x hx (h.2 x hx)
  | @node r p k m parts place takes worded count parted ih =>
    rw [hasBodies, every_node, and_eq_true, not_eq_true', all_eq_true] at h
    have hown : (Node.node k m parts).lacksStatements = false := by
      cases k with
      | getter | setter => exact h.1
      | catchClause =>
        obtain ⟨a, b, rfl⟩ := Shape.parts_two count
        exact (parted 1 b rfl).isAbsent_eq_false
      | finallyClause =>
        obtain ⟨a, rfl⟩ := Shape.parts_one count
        exact (parted 0 a rfl).isAbsent_eq_false
      | _ => rfl
    rw [isBindable_node, hown, Bool.not_false, Bool.true_and, all_eq_true]
    intro x hx
    obtain ⟨i, hi⟩ := mem_iff_getElem?.1 hx
    exact ih i x hi (h.2 x hx)

theorem Node.Renames.lacksStatements_relabel {f : Relabelling} (hf : Renames f) (n : Node) :
    (n.relabel f).lacksStatements = n.lacksStatements := by
  cases n with
  | node k m parts =>
    rw [relabel_node]
    obtain hk | ⟨x, y, hx, hy⟩ := Kind.eq_of_blank (hf k m)
    · rw [hk]
      cases k with
      | getter | setter | catchClause | finallyClause => simp only [lacksStatements, getD_relabel, isAbsent_relabel]
      | _ => rfl
    · rw [hy, hx]
      rfl
  | _ => simp [lacksStatements]

theorem Node.Renames.isBindable_relabel {f : Relabelling} (hf : Renames f) (n : Node) :
    (n.relabel f).isBindable = n.isBindable :=
  every_relabel (fun n => by rw [hf.lacksStatements_relabel]) n

theorem Node.isBindable_blank (n : Node) : n.blank.isBindable = n.isBindable := by
  rw [blank_eq_relabel]
  exact Renames.isBindable_relabel (fun k _ => Kind.blank_rename _ k) n

theorem Node.Marked.blank (h : Marked n) : Marked n.blank := by
  rw [← relabel_id n] at h
  rw [blank_eq_relabel]
  exact Marked.relabel (fun k _ => by exact Kind.blank_rename _ k) (by intros; rfl) h

namespace Binding

/-- A computation returns under a condition, from whatever scopes. -/
def Returns {α : Type} (x : Bind α) (good : Prop) : Prop := ∀ b, (∃ r, x b = .ok r) ↔ good

namespace Returns

variable {α β γ : Type} {x : Bind α} {p q : Prop}

theorem congr (h : Returns x p) (hp : p ↔ q) : Returns x q := fun b => (h b).trans hp

theorem pure (a : α) : Returns (pure a) True := fun b => ⟨fun _ => trivial, fun _ => ⟨(a, b), rfl⟩⟩

theorem throw (e : TreeError) : Returns (throw e : Bind α) False := fun _ => ⟨nofun, nofun⟩

theorem modify (f : Binder → Binder) : Returns (modify f) True := fun b => ⟨fun _ => trivial, fun _ => ⟨((), f b), rfl⟩⟩

theorem bind {f : α → Bind β} (h : Returns x p) (hf : ∀ a, Returns (f a) q) : Returns (x >>= f) (p ∧ q) := by
  intro b
  constructor
  · rintro ⟨r, hr⟩
    obtain ⟨a, b', ha, hr⟩ := bind_ok.1 hr
    exact ⟨(h b).1 ⟨_, ha⟩, (hf a b').1 ⟨r, hr⟩⟩
  · rintro ⟨hp, hq⟩
    obtain ⟨⟨a, b'⟩, ha⟩ := (h b).2 hp
    obtain ⟨r, hr⟩ := (hf a b').2 hq
    exact ⟨r, bind_ok.2 ⟨a, b', ha, hr⟩⟩

theorem map (f : α → β) (h : Returns x p) : Returns (f <$> x) p := by
  rw [map_eq_pure_bind]
  exact (h.bind fun a => .pure (f a)).congr (by simp)

theorem mapM {xs : List γ} {f : γ → Bind β} {good : γ → Prop} (h : ∀ x ∈ xs, Returns (f x) (good x)) :
    Returns (xs.mapM f) (∀ x ∈ xs, good x) := by
  induction xs with
  | nil => exact (Returns.pure []).congr (by simp)
  | cons x xs ih =>
    obtain ⟨hx, hxs⟩ := forall_mem_cons.1 h
    rw [mapM_cons]
    exact (hx.bind fun a => (ih hxs).bind fun as => .pure (a :: as)).congr (by simp)

/-- A computation behind a check. -/
theorem guarded {c : Prop} [Decidable c] {e : TreeError} {f : Unit → Bind α} (h : Returns (f ()) p) :
    Returns (if c then MonadExcept.throw e >>= f else f ()) (¬c ∧ p) := by
  split
  · next hc => exact ((Returns.throw e).bind fun _ => h).congr (by simp [hc])
  · next hc => exact h.congr (by simp [hc])

end Returns

theorem returns_note (n : Node) : Returns (note n) True := fun _ => ⟨fun _ => trivial, fun _ => ⟨_, rfl⟩⟩

theorem returns_word (h : DeclaredName n) : Returns (liftM n.word : Bind String) True := by
  obtain ⟨-⟩ := h
  exact fun _ => ⟨fun _ => trivial, fun _ => ⟨_, rfl⟩⟩

theorem returns_defineNewVar (x : String) : Returns (defineNewVar x) True := by
  intro b
  rw [defineNewVar_eq]
  split
  · exact ⟨fun _ => trivial, fun _ => ⟨_, rfl⟩⟩
  · exact Returns.modify _ b

theorem returns_parameter (h : DeclaredName n) : Returns (parameter n) True :=
  ((returns_word h).bind fun _ => (Returns.modify _).bind fun _ => returns_note n).congr (by simp)

/-- The scopes of a tree are found exactly if it lacks no statements. -/
theorem returns_fold (h : Marked n) : Returns (n.fold algebra) (n.isBindable) := by
  induction h with
  | absent => exact (Returns.pure _).congr (by simp)
  | @seq ns items ih =>
    rw [fold_seq]
    have hitems : Returns ((ns.map fun n => (n, n.fold algebra)).mapM (fun q => q.2)) (∀ n ∈ ns, n.isBindable) := by
      rw [mapM_map]
      exact .mapM ih
    exact (hitems.bind fun _ => .pure _).congr (by simp)
  | name scope used =>
    rw [fold_node]
    exact (returns_note _).congr (by simp [isBindable_node, lacksStatements])
  | @declaration k m name value scope kind declared rest ih =>
    rw [fold_node]
    have hname : name.isBindable := by obtain ⟨-⟩ := declared; rfl
    rcases kind with rfl | rfl
    · refine Returns.congr ((returns_word declared).bind fun x => (returns_defineNewVar x).bind fun _ =>
        (returns_note _).bind fun _ => ih.bind fun _ => .pure _) ?_
      simp [isBindable_node, lacksStatements, hname]
    · refine Returns.congr ((returns_word declared).bind fun x => (returns_defineNewVar x).bind fun _ =>
        (returns_note _).bind (q := ¬value.isAbsent ∧ value.isBindable) fun _ => ?_) ?_
      · exact (Returns.guarded (ih.bind fun _ => .pure _)).congr (and_congr_right' (by simp))
      · simp [isBindable_node, lacksStatements, hname]
  | @function form m name params body scope declared declares rest ih =>
    have hname : name.isBindable := by
      rcases declared with rfl | declared
      · rfl
      · obtain ⟨-⟩ := declared
        rfl
    have hparams : ∀ p ∈ params, p.isBindable := by
      intro p hp
      obtain ⟨-⟩ := declares p hp
      rfl
    have hfunction : ∀ outer ident, Returns (functionParts form m name params body outer ident) (∀ n ∈ body, n.isBindable) := by
      intro outer ident
      have hbody : Returns ((body.map fun n => (n, n.fold algebra)).mapM (fun q => q.2)) (∀ n ∈ body, n.isBindable) := by
        rw [mapM_map]
        exact .mapM ih
      refine ((returns_note name).bind fun _ => (Returns.modify _).bind fun _ =>
        (Returns.mapM fun p hp => returns_parameter (declares p hp)).bind fun _ =>
          hbody.bind fun _ => (Returns.modify _).bind fun _ => .pure _).congr ?_
      simp
    intro b
    rw [function_eq]
    have hgood : (Node.node (.function form) m [name, .seq params, .seq body]).isBindable ↔ ∀ n ∈ body, n.isBindable := by
      simp only [isBindable_node, lacksStatements, all_cons, all_nil, isBindable_seq, hname,
        all_eq_true.2 hparams, Bool.not_false, Bool.true_and, Bool.and_true, all_eq_true]
    rw [hgood]
    split
    · exact hfunction _ _ b
    · next hpresent =>
      have hdeclared := declared.resolve_left (by rintro rfl; exact hpresent rfl)
      exact (((returns_word hdeclared).map some).bind fun ident => hfunction _ ident).congr (by simp) b
  | @other k m parts scope kind rest ih =>
    have hparts : Returns ((parts.map (asPart algebra)).mapM (fun q => q.value)) (∀ p ∈ parts, p.isBindable) := by
      rw [mapM_map]
      exact .mapM ih
    have hnode : Returns (do return Node.node k m (← (parts.map (asPart algebra)).mapM fun q => q.value))
        (∀ p ∈ parts, p.isBindable) := (hparts.bind fun _ => .pure _).congr (by simp)
    rw [fold_node, isBindable_node]
    change Returns (node k m (parts.map (asPart algebra))) _
    cases k with
    | identifier | varDecl | catchClause | function => cases kind
    | getter | setter | finallyClause =>
      refine (Returns.guarded (f := fun _ => _) hnode).congr ?_
      simp only [show (pure absent : Bind Node) = algebra.absent from rfl, Spell.part_eq, asPart]
      simp [lacksStatements]
    | _ => exact hnode.congr (by simp [lacksStatements])

/-! ## A tree and the same tree without names -/

/-- The same scopes, as far as they lie in each other. -/
structure Level (b c : Binder) : Prop where
  current : b.current = c.current
  parents : b.scopes.all.map (·.parent) = c.scopes.all.map (·.parent)

theorem Level.length (h : Level b c) : b.scopes.all.length = c.scopes.all.length := by
  have := congrArg List.length h.parents
  rwa [length_map, length_map] at this

theorem parents_modify (s : Scopes) (i : Nat) (f : Scope → Scope) (hf : ∀ c, (f c).parent = c.parent) :
    (s.modify i f).all.map (·.parent) = s.all.map (·.parent) := by
  refine ext_getElem? fun j => ?_
  rw [getElem?_map, getElem?_map, Scopes.modify, getElem?_modify]
  cases s.all[j]? with
  | none => rfl
  | some c =>
    simp only [Option.map_some, Option.map_eq_map]
    split <;> simp [hf]

theorem parents_define (s : Scopes) (i : Nat) (x : String) (sym : Symbol) :
    (s.define i x sym).all.map (·.parent) = s.all.map (·.parent) := by
  rcases sym with _ | f
  · exact parents_modify s i _ (by intro; rfl)
  · exact (parents_modify _ f _ (by intro; rfl)).trans (parents_modify s i _ (by intro; rfl))

theorem Level.trans {d : Binder} (h : Level b c) (h' : Level c d) : Level b d :=
  ⟨h.current.trans h'.current, h.parents.trans h'.parents⟩

theorem Level.symm (h : Level b c) : Level c b := ⟨h.current.symm, h.parents.symm⟩

theorem level_defineVar {x : String} (h : defineVar x b = .ok r) : Level b r.2 := by
  cases h
  exact ⟨rfl, (parents_define ..).symm⟩

theorem level_defineNewVar {x : String} (h : defineNewVar x b = .ok r) : Level b r.2 := by
  rw [defineNewVar_eq] at h
  split at h
  · cases h
    exact ⟨rfl, rfl⟩
  · exact level_defineVar h

/-- The scope of a function lies in the current one, whatever the name of the function. -/
theorem parents_enter {x : Option String} (h : enter x b = .ok r) :
    r.2.current = b.scopes.all.length ∧ r.2.scopes.all.map (·.parent) = b.scopes.all.map (·.parent) ++ [some b.current] := by
  cases h
  refine ⟨rfl, ?_⟩
  cases x with
  | none => exact map_append
  | some x => exact (parents_define ..).trans map_append

theorem Level.enter (h : Level b c) {x y : Option String} {r' : Unit × Binder} (hr : enter x b = .ok r)
    (hr' : enter y c = .ok r') : Level r.2 r'.2 := by
  obtain ⟨current, parents⟩ := parents_enter hr
  obtain ⟨current', parents'⟩ := parents_enter hr'
  exact ⟨by rw [current, current', h.length], by rw [parents, parents', h.parents, h.current]⟩

/-- What is found for a tree and for the same tree without names. -/
structure Tandem (n : Node) (r r' : Node × Binder) : Prop where
  forgotten : r.1.forgetScopes = n
  blank : r'.1 = r.1.blank
  level : Level r.2 r'.2

/-- What is found for some trees and for the same trees without names. -/
structure TandemAll (ns : List Node) (r r' : List Node × Binder) : Prop where
  forgotten : r.1.map forgetScopes = ns
  blank : r'.1 = r.1.map blank
  level : Level r.2 r'.2

theorem mapM_tandem {γ : Type} (node : γ → Node) {xs : List γ} {f f' : γ → Bind Node}
    (h : ∀ x ∈ xs, ∀ {b c r r'}, Level b c → f x b = .ok r → f' x c = .ok r' → Tandem (node x) r r') {r : List Node × Binder}
    (hl : Level b c) (hr : xs.mapM f b = .ok r) (hr' : xs.mapM f' c = .ok r') : TandemAll (xs.map node) r r' := by
  induction xs generalizing b c r r' with
  | nil =>
    obtain rfl := pure_ok.1 (show (pure [] : Bind _) b = _ from hr)
    obtain rfl := pure_ok.1 (show (pure [] : Bind _) c = _ from hr')
    exact ⟨rfl, rfl, hl⟩
  | cons x xs ih =>
    obtain ⟨n, b₁, ns, b₂, hx, hxs, rfl⟩ := mapM_cons_ok hr
    obtain ⟨n', c₁, ns', c₂, hx', hxs', rfl⟩ := mapM_cons_ok hr'
    have first := h x mem_cons_self hl hx hx'
    have rest := ih (fun y hy => h y (mem_cons_of_mem _ hy)) first.level hxs hxs'
    exact ⟨congrArg₂ cons first.forgotten rest.forgotten, congrArg₂ cons first.blank rest.blank, rest.level⟩

variable {m : Mark}

/-- A name is noted alike with its text and without. -/
theorem noted_tandem {x : String} (scope : m.scope = none) (hl : Level b c) :
    Tandem (.node (.identifier x) m []) (noted b.current (.node (.identifier x) m []), b)
      (noted c.current (.node (.identifier "") m []), c) := by
  rw [← hl.current]
  refine ⟨?_, by rw [noted, noted, modifyMark, modifyMark, blank_identifier], hl⟩
  rw [noted, modifyMark, forgetScopes_eq_relabel, relabel_node, ← scope]
  rfl

theorem declared_tandem (h : DeclaredName n) (hl : Level b c) :
    Tandem n (noted b.current n, b) (noted c.current n.blank, c) := by
  obtain ⟨scope, -, -⟩ := h
  rw [blank_identifier]
  exact noted_tandem scope hl

theorem parameter_tandem (hn : DeclaredName n) {r r' : Node × Binder} (hl : Level b c) (hr : parameter n b = .ok r)
    (hr' : parameter n.blank c = .ok r') : Tandem n r r' := by
  obtain ⟨x, b₁, hx, h₁⟩ := bind_ok.1 hr
  obtain ⟨u, b₂, hd, h₂⟩ := bind_ok.1 h₁
  obtain ⟨x', c₁, hx', h₁'⟩ := bind_ok.1 hr'
  obtain ⟨u', c₂, hd', h₂'⟩ := bind_ok.1 h₁'
  obtain ⟨-, rfl⟩ := word_ok hx
  obtain ⟨-, rfl⟩ := word_ok hx'
  obtain rfl := note_ok h₂
  obtain rfl := note_ok h₂'
  exact declared_tandem hn ((level_defineVar hd).symm.trans (hl.trans (level_defineVar hd')))

theorem items_tandem (h : ∀ n ∈ ns, ∀ {b c r r'}, Level b c → n.fold algebra b = .ok r →
    n.blank.fold algebra c = .ok r' → Tandem n r r') {r : List Node × Binder} (hl : Level b c)
    (hr : (ns.map fun n => (n, n.fold algebra)).mapM (fun q => q.2) b = .ok r)
    (hr' : ((ns.map blank).map fun n => (n, n.fold algebra)).mapM (fun q => q.2) c = .ok r') : TandemAll ns r r' := by
  rw [mapM_map] at hr
  rw [map_map, mapM_map] at hr'
  have all := mapM_tandem id h hl hr hr'
  rwa [map_id] at all

theorem seq_tandem {r : List Node × Binder} (h : TandemAll ns r r') : Tandem (.seq ns) (.seq r.1, r.2) (.seq r'.1, r'.2) := by
  refine ⟨?_, by rw [blank_seq, h.blank], h.level⟩
  rw [forgetScopes_eq_relabel, relabel_seq]
  exact congrArg seq h.forgotten

theorem node_tandem {k : Kind} (hk : ∀ x, k ≠ .identifier x) (scope : m.scope = none) {r : List Node × Binder}
    (h : TandemAll ns r r') : Tandem (.node k m ns) (.node k m r.1, r.2) (.node k m r'.1, r'.2) := by
  refine ⟨?_, by rw [blank_node hk, h.blank], h.level⟩
  have hm : { m with scope := none } = m := by rw [← scope]
  rw [forgetScopes_eq_relabel, relabel_node, hm]
  exact congrArg (Node.node k m) h.forgotten

/-- What is noted on a tree, and how its scopes lie in each other, does not hang on its names. -/
theorem fold_tandem (h : Marked n) {r r' : Node × Binder} (hl : Level b c) (hr : n.fold algebra b = .ok r)
    (hr' : n.blank.fold algebra c = .ok r') : Tandem n r r' := by
  induction h generalizing b c r r' with
  | absent =>
    obtain rfl := pure_ok.1 hr
    obtain rfl := pure_ok.1 hr'
    exact ⟨rfl, rfl, hl⟩
  | @seq ns items ih =>
    rw [blank_seq] at hr'
    rw [fold_seq] at hr hr'
    obtain ⟨ns₁, b₁, hm, hp⟩ := bind_ok.1 hr
    obtain ⟨ns₂, c₁, hm', hp'⟩ := bind_ok.1 hr'
    obtain rfl := pure_ok.1 hp
    obtain rfl := pure_ok.1 hp'
    exact seq_tandem (items_tandem ih hl hm hm')
  | name scope used =>
    rw [blank_identifier] at hr'
    rw [fold_node] at hr hr'
    obtain rfl := note_ok hr
    obtain rfl := note_ok hr'
    exact noted_tandem scope hl
  | @declaration k m name value scope kind declared rest ih =>
    have hk : ∀ x, k ≠ .identifier x := by
      rcases kind with rfl | rfl <;> simp
    rw [blank_node hk] at hr'
    obtain ⟨x, u, b₁, v, b₂, -, hd, hv, rfl⟩ := declaration_ok kind hr
    obtain ⟨x', u', c₁, v', c₂, -, hd', hv', rfl⟩ := declaration_ok kind hr'
    have hl₁ := (level_defineNewVar hd).symm.trans (hl.trans (level_defineNewVar hd'))
    have first := declared_tandem declared hl₁
    have rest := ih hl₁ hv hv'
    have parts : TandemAll [name, value] ([noted b₁.current name, v], b₂) ([noted c₁.current name.blank, v'], c₂) :=
      ⟨congrArg₂ cons first.forgotten (congrArg₂ cons rest.forgotten rfl),
        congrArg₂ cons first.blank (congrArg₂ cons rest.blank rfl), rest.level⟩
    exact node_tandem hk scope parts
  | @function form m name params body scope declared declares rest ih =>
    rw [blank_node (by simp)] at hr'
    simp only [map_cons, map_nil, blank_seq] at hr'
    obtain ⟨ident, -, -, hf⟩ := function_ok hr
    obtain ⟨ident', -, -, hf'⟩ := function_ok hr'
    obtain ⟨u, b₁, ps, b₂, bs, b₃, he, hps, hbs, rfl⟩ := functionParts_ok hf
    obtain ⟨u', c₁, ps', c₂, bs', c₃, he', hps', hbs', rfl⟩ := functionParts_ok hf'
    have hname : Tandem name (noted b.current name, b) (noted c.current name.blank, c) := by
      rcases declared with rfl | declared
      · exact ⟨rfl, rfl, hl⟩
      · exact declared_tandem declared hl
    rw [mapM_map] at hps'
    have inner := mapM_tandem id (fun p hp => parameter_tandem (declares p hp)) (hl.enter he he') hps hps'
    rw [map_id] at inner
    have statements := items_tandem ih inner.level hbs hbs'
    have parts : TandemAll [name, .seq params, .seq body] ([noted b.current name, .seq ps, .seq bs], ⟨b₃.scopes, b.current⟩)
        ([noted c.current name.blank, .seq ps', .seq bs'], ⟨c₃.scopes, c.current⟩) :=
      ⟨congrArg₂ cons hname.forgotten (congrArg₂ cons (seq_tandem inner).forgotten
          (congrArg₂ cons (seq_tandem statements).forgotten rfl)),
        congrArg₂ cons hname.blank (congrArg₂ cons (seq_tandem inner).blank
          (congrArg₂ cons (seq_tandem statements).blank rfl)), hl.current, statements.level.parents⟩
    exact node_tandem (by simp) scope parts
  | @other k m parts scope kind rest ih =>
    have hk : ∀ x, k ≠ .identifier x := by
      rintro x rfl
      cases kind
    rw [blank_node hk] at hr'
    rw [fold_node] at hr hr'
    obtain ⟨ns, b₁, hm, rfl⟩ := node_plain_ok kind hr
    obtain ⟨ns', c₁, hm', rfl⟩ := node_plain_ok kind hr'
    rw [mapM_map] at hm
    rw [map_map, mapM_map] at hm'
    have all := mapM_tandem id ih hl hm hm'
    rw [map_id] at all
    exact node_tandem hk scope all

theorem Level.refl (b : Binder) : Level b b := ⟨rfl, rfl⟩

/-- The scopes of a program are found exactly if it lacks no statements. -/
theorem bind_ok_iff (h : Marked n) : (∃ r, n.bind = .ok r) ↔ n.isBindable := by
  rw [← returns_fold h start]
  constructor
  · rintro ⟨⟨tree, s⟩, hr⟩
    obtain ⟨b, hf, -⟩ := bind_eq_ok_iff.1 hr
    exact ⟨_, hf⟩
  · rintro ⟨⟨tree, b⟩, hf⟩
    exact ⟨(tree, b.scopes), bind_eq_ok_iff.2 ⟨b, hf, rfl⟩⟩

/-- What is found for a program and for the same program without names. -/
theorem bind_blank {tree : Node} (hn : Marked n) (h : n.bind = .ok (tree, s)) : tree.forgetScopes = n ∧
      ∃ s', n.blank.bind = .ok (tree.blank, s') ∧ s.all.map (·.parent) = s'.all.map (·.parent) := by
  obtain ⟨⟨tree', s'⟩, h'⟩ := (bind_ok_iff hn.blank).2 (by rw [isBindable_blank, ← bind_ok_iff hn]; exact ⟨_, h⟩)
  obtain ⟨b, hf, rfl⟩ := bind_eq_ok_iff.1 h
  obtain ⟨c, hf', rfl⟩ := bind_eq_ok_iff.1 h'
  obtain ⟨forgotten, rfl, level⟩ := fold_tandem hn (Level.refl start) hf hf'
  exact ⟨forgotten, c.scopes, h', level.parents⟩

theorem sameNesting_of_parents {t : Scopes} (h : s.all.map (·.parent) = t.all.map (·.parent)) : s.SameNesting t := by
  have hget : ∀ (s : Scopes) i, (s.get i).parent = (s.all.map (·.parent)).getD i none := fun s i => by
    rw [Scopes.get, getD_eq_getElem?_getD, getD_eq_getElem?_getD, getElem?_map]
    cases s.all[i]? <;> rfl
  exact ⟨by rw [← length_map (f := (·.parent)), h, length_map], fun i => by rw [hget, hget, h]⟩

/-- Two programs that differ by their names have the same notes, and scopes that lie in each other alike. -/
theorem bind_of_blank_eq {n' tree : Node} (hn : Marked n) (hn' : Marked n') (heq : n'.blank = n.blank)
    (h : n.bind = .ok (tree, s)) : ∃ tree' s', n'.bind = .ok (tree', s') ∧ tree'.blank = tree.blank ∧ s.SameNesting s' := by
  obtain ⟨⟨tree', s'⟩, h'⟩ := (bind_ok_iff hn').2 (by
    rw [← isBindable_blank, heq, isBindable_blank, ← bind_ok_iff hn]
    exact ⟨_, h⟩)
  obtain ⟨-, t, ht, parents⟩ := bind_blank hn h
  obtain ⟨-, t', ht', parents'⟩ := bind_blank hn' h'
  rw [heq, ht] at ht'
  obtain ⟨htree, rfl⟩ := Prod.mk.inj (Except.ok.inj ht')
  exact ⟨tree', s', h', htree.symm, sameNesting_of_parents (parents.trans parents'.symm)⟩

end Binding

end JsMinify
