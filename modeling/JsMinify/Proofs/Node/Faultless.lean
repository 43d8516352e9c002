import JsMinify.Proofs.Node.Clean
import JsMinify.Proofs.Node.Printing
import JsMinify.Proofs.Node.Words

/-!
# Trees that have a compact form

A tree of the right shape is printed unless it holds an accessor without statements or a setter with several
parameters (`Node.isDefective`), and no placeholder is printed for any of its nodes. `Compact.strict` prints an
error in the place of every placeholder; `Shown` compares what is printed both ways, and `Formed.shown` proves it
by induction on the shape.
-/

namespace JsMinify

open List JsMinify.Compact Node

/-- An accessor without statements, or a setter with more than one parameter. -/
def Node.isDefective : Node → Bool
  | .node .getter _ parts => (parts.getD 1 .absent).isAbsent
  | .node .setter _ parts => (parts.getD 2 .absent).isAbsent || decide (1 < (parts.getD 1 .absent).items.length)
  | _ => false

/-- No node of the tree is defective. -/
def Node.isFaultless (n : Node) : Bool := n.every fun n => !n.isDefective

namespace Compact

/-- Nodes of the kind have a form of their own. -/
def hasForm : Kind → Bool
  | .plain | .elision _ => false
  | _ => true

/-- The compact forms of trees, with an error for everything that has no form of its own: an absent node, a
sequence, a node of some kinds, or a node without the parts of its kind. -/
def strict : Algebra Out where
  absent := .error (.noPart "NoneType" "form")
  seq := fun _ => .error (.noPart "list" "form")
  node := fun k m parts =>
    if hasForm k && k.shape.admits parts.length then node k m parts else .error (.noPart k.name "form")

end Compact

/-- What is printed with placeholders and without: it is printed under a condition, and then the same. -/
structure Shown {α : Type} (lax strict : Except TreeError α) (good : Prop) : Prop where
  ok_iff : (∃ a, lax = .ok a) ↔ good
  same : good → strict = lax

namespace Shown

variable {α β γ : Type} {x x' : Except TreeError α} {p q : Prop}

theorem congr (h : Shown x x' p) (hp : p ↔ q) : Shown x x' q :=
  ⟨h.ok_iff.trans hp, fun hq => h.same (hp.2 hq)⟩

theorem ok (a : α) : Shown (.ok a) (.ok a) True := ⟨⟨fun _ => trivial, fun _ => ⟨a, rfl⟩⟩, fun _ => rfl⟩

theorem error (e e' : TreeError) : Shown (α := α) (.error e) (.error e') False :=
  ⟨⟨nofun, False.elim⟩, False.elim⟩

theorem bind {f f' : α → Except TreeError β} (h : Shown x x' p) (hf : ∀ a, Shown (f a) (f' a) q) :
    Shown (x >>= f) (x' >>= f') (p ∧ q) := by
  cases x with
  | error e =>
    have hp : ¬p := fun hp => by
      obtain ⟨a, ha⟩ := h.ok_iff.2 hp
      cases ha
    exact ⟨⟨nofun, fun hpq => absurd hpq.1 hp⟩, fun hpq => absurd hpq.1 hp⟩
  | ok a =>
    have hp : p := h.ok_iff.1 ⟨a, rfl⟩
    rw [h.same hp]
    exact (hf a).congr (by simp [hp])

theorem map (f : α → β) (h : Shown x x' p) : Shown (f <$> x) (f <$> x') p := by
  rw [map_eq_pure_bind, map_eq_pure_bind]
  exact (h.bind fun a => .ok (f a)).congr (by simp)

theorem ite {c : Prop} [Decidable c] {y y' : Except TreeError α} (h : c → Shown x x' p) (h' : ¬c → Shown y y' p) :
    Shown (if c then x else y) (if c then x' else y') p := by
  split
  · exact h ‹c›
  · exact h' ‹¬c›

theorem mapM {xs : List γ} {f f' : γ → Except TreeError β} {good : γ → Prop}
    (h : ∀ x ∈ xs, Shown (f x) (f' x) (good x)) : Shown (xs.mapM f) (xs.mapM f') (∀ x ∈ xs, good x) := by
  induction xs with
  | nil => exact (Shown.ok []).congr (by simp)
  | cons x xs ih =>
    obtain ⟨hx, hxs⟩ := forall_mem_cons.1 h
    rw [mapM_cons, mapM_cons]
    exact (hx.bind fun a => (ih hxs).bind fun as => .ok (a :: as)).congr (by simp)

end Shown

open Node

@[simp] theorem Node.isFaultless_absent : absent.isFaultless := rfl

@[simp] theorem Node.isFaultless_seq (ns : List Node) : (seq ns).isFaultless = ns.all isFaultless := every_seq _ ns

theorem Node.isFaultless_node (k : Kind) (m : Mark) (parts : List Node) :
    (Node.node k m parts).isFaultless = (!(Node.node k m parts).isDefective && parts.all isFaultless) :=
  every_node _ k m parts

variable {k : Kind}

/-- A node that is no accessor has no defect of its own. -/
theorem Node.isFaultless_plain (hg : k ≠ .getter) (hs : k ≠ .setter) (m : Mark) (parts : List Node) :
    (Node.node k m parts).isFaultless = parts.all isFaultless := by
  have hown : (Node.node k m parts).isDefective = false := by
    cases k with
    | getter => exact absurd rfl hg
    | setter => exact absurd rfl hs
    | _ => rfl
  rw [isFaultless_node, hown]
  rfl

attribute [local simp] isFaultless_plain

/-- The node is printed both ways, unless it has a defect. -/
abbrev Node.Shows (n : Node) : Prop := Shown (n.fold algebra) (n.fold Compact.strict) (n.isFaultless = true)

def Place.Shows (p : Place) (n : Node) : Prop :=
  match p with
  | .element => n.isElision = false → n.Shows
  | _ => n.Shows

/-- The parts of a node are as its kind asks for, and printed both ways. -/
abbrev PartsShown (k : Kind) (parts : List Node) (path : Path) : Prop := PartsHold (fun p _ n => p.Shows n) k parts path

namespace Shown

variable {α : Type} {x : Node} {ns : List Node}

/-- A part that is printed only if it is there. -/
theorem ifPresent {a : α} {y y' : Except TreeError α} (h : ¬x.isAbsent → Shown y y' (x.isFaultless)) :
    Shown (if x.isAbsent then .ok a else y) (if x.isAbsent then .ok a else y') (x.isFaultless) := by
  refine .ite (fun ha => ?_) h
  obtain rfl := eq_absent ha
  exact (Shown.ok _).congr (by simp)

theorem optional (h : x = .absent ∨ x.Shows) (lead : String) :
    Shown (Compact.optional lead (asPart algebra x)) (Compact.optional lead (asPart Compact.strict x)) (x.isFaultless) :=
  .ifPresent fun ha => ((of_present h ha).bind fun _ => .ok _).congr (by simp)

/-- The items of a part that is a sequence. -/
theorem items (h : ∀ (i : Nat) x, ns[i]? = some x → x.Shows) :
    Shown (Compact.items (asPart algebra (.seq ns))) (Compact.items (asPart Compact.strict (.seq ns)))
      (∀ x ∈ ns, x.isFaultless) := by
  show Shown ((ns.map fun x => (x, x.fold algebra)).mapM fun q => q.2)
    ((ns.map fun x => (x, x.fold Compact.strict)).mapM fun q => q.2) _
  rw [mapM_map, mapM_map]
  exact .mapM (forall_mem_of_getElem? h)

/-- A sequence that may have been left out is not printed then. -/
theorem body (h : x = .absent ∨ ∃ ns, x = .seq ns ∧ ∀ (i : Nat) x, ns[i]? = some x → x.Shows) :
    Shown (Compact.items (asPart algebra x)) (Compact.items (asPart Compact.strict x))
      (x.isAbsent = false ∧ x.isFaultless) := by
  rcases h with rfl | ⟨ns, rfl, hns⟩
  · exact (Shown.error _ _).congr (by simp [isAbsent])
  · exact (Shown.items hns).congr (by simp [isAbsent])

/-- Parts that may be any in number. -/
theorem every (h : ∀ (i : Nat) x, ns[i]? = some x → x.Shows) :
    Shown (Compact.every (ns.map (asPart algebra))) (Compact.every (ns.map (asPart Compact.strict)))
      (∀ x ∈ ns, x.isFaultless) := by
  unfold Compact.every
  rw [mapM_map, mapM_map]
  exact .mapM (forall_mem_of_getElem? h)

/-- Parts that may be any in number are all present. -/
theorem present (hall : ∀ x ∈ ns, x.isAbsent = false) (h : ∀ (i : Nat) x, ns[i]? = some x → x.Shows) :
    Shown (Compact.present (ns.map (asPart algebra))) (Compact.present (ns.map (asPart Compact.strict)))
      (∀ x ∈ ns, x.isFaultless) := by
  unfold Compact.present
  rw [filter_asPart _ hall, filter_asPart _ hall]
  exact .every h

end Shown

/-! ## Nodes -/

theorem shown_arrayItems {ns : List Node} (hformed : ∀ x ∈ ns, Formed (.one .element) x) (h : ∀ x ∈ ns, x.isElision = false →
    Shown (x.fold algebra) (x.fold Compact.strict) (x.isFaultless)) :
    Shown (arrayItems (ns.map (asPart algebra))) (arrayItems (ns.map (asPart Compact.strict))) (∀ x ∈ ns, x.isFaultless) := by
  induction ns with
  | nil => exact (Shown.ok _).congr (by simp)
  | cons n ns ih =>
    obtain ⟨hshown, hns⟩ := forall_mem_cons.1 h
    obtain ⟨hn, hformed⟩ := forall_mem_cons.1 hformed
    have ih' := ih hformed hns
    have hempty : (ns.map (asPart algebra)).isEmpty = (ns.map (asPart Compact.strict)).isEmpty := by
      cases ns <;> rfl
    rw [map_cons, map_cons, arrayItems, arrayItems, hempty]
    refine .ite (fun hhole => ?_) fun hhole => ?_
    · have hfit : n.isFaultless := by
        obtain ⟨k, m, parts, rfl, -, -, count, -⟩ := hn.exists_node
        cases k with
        | elision =>
          obtain rfl := Shape.parts_none count
          rfl
        | _ => cases hhole
      exact (ih'.bind fun _ => .ok _).congr (by simp [hfit])
    · have hvalue := hshown (by simpa using hhole)
      refine .ite (fun hlast => ?_) fun _ => ?_
      · obtain rfl : ns = [] := by simpa using hlast
        exact hvalue.congr (by simp)
      · exact (hvalue.bind fun _ => ih'.bind fun _ => .ok _).congr (by simp)

/-- A part that is a sequence. -/
theorem Formed.exists_seq {r : Role} {n : Node} {p : Place} (h : Formed r n) (hr : r.items? = some p)
    (ha : n.isAbsent = false) : ∃ ns, n = .seq ns := by
  cases h with
  | absent => cases ha
  | seq => exact ⟨_, rfl⟩
  | node place =>
    cases r with
    | list | optionalList => cases place
    | _ => cases hr

theorem Formed.isAbsent_of_needed {r : Role} {n : Node} (h : Formed r n) (hr : r.omissible = false) : n.isAbsent = false := by
  cases h with
  | absent omissible => cases hr.symm.trans omissible
  | _ => rfl

/-- A list of parts that cannot be left out. -/
theorem Formed.exists_list {n : Node} {p : Place} (h : Formed (.list p) n) : ∃ ns, n = .seq ns :=
  h.exists_seq rfl (h.isAbsent_of_needed rfl)

/-- A clause of a `switch` is a `case`. -/
theorem Shown.cases {ns : List Node} (hformed : ∀ x ∈ ns, Formed (.one .caseClause) x)
    (h : ∀ (i : Nat) x, ns[i]? = some x → x.Shows) :
    Shown (Compact.cases (asPart algebra (.seq ns))) (Compact.cases (asPart Compact.strict (.seq ns)))
      (∀ x ∈ ns, x.isFaultless) := by
  have hall : ∀ x ∈ ns, Shown (do expectCase x; x.fold algebra) (do expectCase x; x.fold Compact.strict) (x.isFaultless) := by
    intro x hm
    have hcase : x.expectCase = .ok () := by
      obtain ⟨k, m, parts, rfl, takes, -⟩ := (hformed x hm).exists_node
      cases k with
      | caseClause => rfl
      | _ => cases takes
    rw [hcase]
    exact forall_mem_of_getElem? h x hm
  show Shown ((ns.map fun x => (x, x.fold algebra)).mapM fun c => do expectCase c.1; c.2)
    ((ns.map fun x => (x, x.fold Compact.strict)).mapM fun c => do expectCase c.1; c.2) _
  rw [mapM_map, mapM_map]
  exact .mapM hall

/-- The name that a jump leads to. -/
theorem Formed.word_of_name {r : Role} (hr : r.place? = some .name) {n : Node} (h : Formed r n)
    (ha : n.isAbsent = false) : ∃ name, n.word = .ok name ∧ n.isFaultless := by
  obtain ⟨name, m, rfl, -⟩ := h.name hr ha
  exact ⟨name, rfl, rfl⟩

section

/-- What is printed for a node from its parts is printed both ways, unless the node has a defect. -/
abbrev ShownNode (k : Kind) (m : Mark) (parts : List Node) : Prop :=
  Shown (Compact.node k m (parts.map (asPart algebra))) (Compact.node k m (parts.map (asPart Compact.strict)))
    ((Node.node k m parts).isFaultless)

variable {m : Mark} {parts : List Node} {path : Path}

/-- A setter with more than one parameter is not printed. -/
theorem shown_setter (h : PartsShown .setter parts path) : ShownNode .setter m parts := by
  obtain ⟨key, params, body, rfl, hkey, ⟨ps, rfl, hparams⟩, hbody⟩ := h.three rfl
  by_cases hmany : 1 < ps.length
  · have hfail (a : Algebra Compact.Out) : Compact.node .setter m ([key, .seq ps, body].map (asPart a)) =
        .error .setterArity := by
      simp [Compact.node, Algebra.part, asPart, isAbsent, Node.items, hmany]
      rfl
    rw [ShownNode, hfail, hfail]
    exact (Shown.error _ _).congr (by simp [isFaultless_node, isDefective, Node.items, hmany])
  have hprint (a : Algebra Compact.Out) : Compact.node .setter m ([key, .seq ps, body].map (asPart a)) = (do
      let name ← key.fold a
      let params ← (do return .join "" (← Compact.items (asPart a (.seq ps))) : Compact.Out)
      let body ← (do return .join "" (← Compact.items (asPart a body)) : Compact.Out)
      return .parensIf m ("set " ++ name ++ params.inParens ++ body.braced)) := by
    simp [Compact.node, Algebra.part, asPart, isAbsent, Node.items, hmany]
  rw [ShownNode, hprint, hprint]
  refine Shown.congr (hkey.bind fun _ => ((Shown.items hparams).bind fun _ => .ok _).bind fun _ =>
    ((Shown.body hbody).bind fun _ => .ok _).bind fun _ => .ok _) ?_
  have hfew : ps.length ≤ 1 := Nat.le_of_not_lt hmany
  simp [isFaultless_node, isDefective, Node.items, hfew, and_left_comm]

/-- A name in brackets has no defect that could get lost with them. -/
theorem shown_bracket (h : PartsShown .bracket parts path) : ShownNode .bracket m parts := by
  obtain ⟨x, i, rfl, hx, hi⟩ := h.two rfl
  rw [ShownNode, Spell.compact_bracket, Spell.compact_bracket]
  cases hname : memberName? i with
  | some name =>
    have hstring : i.isFaultless := by
      have hi : Formed (.one .expression) i := h.parted 1 i rfl
      obtain ⟨k, m, parts, rfl, -, -, count, -⟩ := hi.exists_node
      cases k with
      | string =>
        obtain rfl := Shape.parts_none count
        rfl
      | _ => cases hname
    exact (hx.bind fun _ => .ok _).congr (by simp [hstring])
  | none => exact (hx.bind fun _ => hi.bind fun _ => .ok _).congr (by simp)

theorem shown_function {form : FunctionForm} (h : PartsShown (.function form) parts path) :
    ShownNode (.function form) m parts := by
  cases form with
  | declared =>
    obtain ⟨name, _, _, rfl, hname, ⟨ps, rfl, hparams⟩, bs, rfl, hbody⟩ := h.three rfl
    refine Shown.congr (((Shown.items hbody).bind fun _ => .ok _).bind fun _ =>
      (hname.map _).bind fun _ => ((Shown.items hparams).bind fun _ => .ok _).bind fun _ => .ok _) ?_
    simp [and_assoc, and_comm]
  | expression =>
    obtain ⟨name, _, _, rfl, hname, ⟨ps, rfl, hparams⟩, bs, rfl, hbody⟩ := h.three rfl
    refine Shown.congr (((Shown.items hbody).bind fun _ => .ok _).bind fun _ =>
      (Shown.optional hname _).bind fun _ => ((Shown.items hparams).bind fun _ => .ok _).bind fun _ => .ok _) ?_
    simp [and_assoc, and_comm]

/-- The `default` clause of a `switch` may be left out. -/
theorem shown_switch (h : PartsShown .switchStmt parts path) : ShownNode .switchStmt m parts := by
  obtain ⟨value, _, last, rfl, hvalue, ⟨cs, rfl, hclauses⟩, hlast⟩ := h.three rfl
  have hcases : ∀ x ∈ cs, Formed (.one .caseClause) x := (h.parted 1 _ rfl).items rfl
  refine Shown.congr (hvalue.bind fun _ => ((Shown.cases hcases hclauses).bind fun _ => .ok _).bind fun _ =>
    .ifPresent (x := last) fun ha => ?_) (by simp)
  have hdefault : last.expectDefault = .ok () := by
    cases h.parted 2 last rfl with
    | absent => cases ha rfl
    | seq list => cases list
    | @node _ _ k _ _ place takes _ _ _ =>
      cases place
      cases k with
      | defaultClause => rfl
      | _ => cases takes
  refine Shown.congr (Shown.bind (p := True) ?_ fun _ => (of_present hlast ha).bind fun _ => .ok _) (by simp)
  show Shown last.expectDefault last.expectDefault True
  rw [hdefault]
  exact .ok ()

/-- A node is printed both ways alike if its parts are. -/
theorem shown_node (hform : hasForm k) (h : PartsShown k parts path) : ShownNode k m parts := by
  cases k with
  | plain | elision => cases hform
  | identifier | number | string | boolean | emptyStmt | null | this | regex | debugger =>
    obtain rfl := Shape.parts_none h.count
    exact (Shown.ok _).congr (by simp)
  | program =>
    have hpresent x hx := (Formed.of_rest rfl h.parted x hx).isAbsent_eq_false
    exact Shown.congr ((Shown.present hpresent h.each).bind fun _ => .ok _) (by simp)
  | block =>
    have hpresent x hx := (Formed.of_rest rfl h.parted x hx).isAbsent_eq_false
    refine Shown.congr ((Shown.present hpresent h.each).bind (q := True) fun ps => ?_) (by simp)
    rcases ps with _ | ⟨p, _ | ⟨q, ps⟩⟩ <;> exact .ok _
  | varStatement =>
    have hpresent x hx := (Formed.of_rest rfl h.parted x hx).isAbsent_eq_false
    exact Shown.congr (((Shown.present hpresent h.each).bind fun _ => .ok _).bind fun _ => .ok _) (by simp)
  | array =>
    have hitems := shown_arrayItems (Formed.of_rest rfl h.parted) (forall_mem_of_getElem? h.each)
    exact Shown.congr (hitems.bind fun _ => .ok _) (by simp)
  | object | defaultClause =>
    exact Shown.congr (((Shown.every h.each).bind fun _ => .ok _).bind fun _ => .ok _) (by simp)
  | call | caseClause =>
    obtain ⟨first, others, rfl⟩ := Shape.parts_cons h.count
    have hothers := Shown.every fun i x (hx : others[i]? = some x) => h.each (i + 1) x hx
    exact Shown.congr ((h.each 0 _ rfl).bind fun _ => (hothers.bind fun _ => .ok _).bind fun _ => .ok _) (by simp)
  | setter => exact shown_setter h
  | bracket => exact shown_bracket h
  | function form => exact shown_function h
  | switchStmt => exact shown_switch h
  | unary | exprStmt | throwStmt | finallyClause =>
    obtain ⟨x, rfl, hx⟩ := h.one rfl
    exact Shown.congr (hx.bind fun _ => .ok _) (by simp)
  | returnStmt =>
    obtain ⟨x, rfl, hx⟩ := h.one rfl
    exact Shown.congr (.ifPresent (x := x) fun ha => ((of_present hx ha).bind fun _ => .ok _).congr (by simp)) (by simp)
  | continueStmt | breakStmt =>
    obtain ⟨x, rfl, -⟩ := h.one rfl
    refine Shown.congr (.ifPresent (x := x) fun ha => ?_) (by simp)
    obtain ⟨name, hword, hfit⟩ := (h.parted 0 x rfl).word_of_name rfl (by exact eq_false_of_ne_true ha)
    refine Shown.congr (Shown.bind (p := True) (q := True) ?_ fun _ => .ok _) (by simp [hfit])
    show Shown x.word x.word True
    rw [hword]
    exact .ok name
  | dot | binary | comma | whileStmt | withStmt | label | catchClause =>
    obtain ⟨x, y, rfl, hx, hy⟩ := h.two rfl
    exact Shown.congr (hx.bind fun _ => hy.bind fun _ => .ok _) (by simp)
  | assign text =>
    obtain ⟨p, hp, hshape⟩ := Kind.shape_assign text
    obtain ⟨x, y, rfl, hx, hy⟩ := h.two hshape
    have hx : x.Shows := by rcases hp with rfl | rfl <;> exact hx
    exact Shown.congr (hx.bind fun _ => hy.bind fun _ => .ok _) (by simp)
  | doWhile =>
    obtain ⟨x, y, rfl, hx, hy⟩ := h.two rfl
    exact Shown.congr (hy.bind fun _ => hx.bind fun _ => .ok _) (by simp [and_comm])
  | varDecl =>
    obtain ⟨name, init, rfl, hname, hinit⟩ := h.two rfl
    exact Shown.congr (hname.bind fun _ => (Shown.optional hinit _).bind fun _ => .ok _) (by simp)
  | getter =>
    obtain ⟨key, body, rfl, hkey, hbody⟩ := h.two rfl
    refine Shown.congr (hkey.bind fun _ => ((Shown.body hbody).bind fun _ => .ok _).bind fun _ => .ok _) ?_
    simp [isFaultless_node, isDefective, and_left_comm]
  | newExpr =>
    obtain ⟨callee, _, rfl, hcallee, xs, rfl, hargs⟩ := h.two rfl
    exact Shown.congr (hcallee.bind fun _ => ((Shown.items hargs).bind fun _ => .ok _).bind fun _ => .ok _) (by simp)
  | conditional | forIn =>
    obtain ⟨x, y, z, rfl, hx, hy, hz⟩ := h.three rfl
    exact Shown.congr (hx.bind fun _ => hy.bind fun _ => hz.bind fun _ => .ok _) (by simp)
  | ifStmt =>
    obtain ⟨test, yes, no, rfl, htest, hyes, hno⟩ := h.three rfl
    exact Shown.congr ((Shown.optional (.inr htest) _).bind fun _ => hyes.bind fun _ =>
      .ifPresent (x := no) fun ha => ((of_present hno ha).bind fun _ => .ok _).congr (by simp)) (by simp)
  | tryStmt =>
    obtain ⟨body, caught, last, rfl, hbody, hcaught, hlast⟩ := h.three rfl
    exact Shown.congr (hbody.bind fun _ => (Shown.optional hcaught _).bind fun _ =>
      (Shown.optional hlast _).bind fun _ => .ok _) (by simp)
  | forStmt =>
    obtain ⟨init, test, next, body, rfl⟩ := Shape.parts_four h.count
    exact Shown.congr ((Shown.optional (h.each 0 _ rfl) _).bind fun _ =>
      (Shown.optional (h.each 1 _ rfl) _).bind fun _ => (Shown.optional (h.each 2 _ rfl) _).bind fun _ =>
      (h.each 3 _ rfl).bind fun _ => .ok _) (by simp)

end

/-! ## Trees -/

namespace Formed

variable {r : Role} {n : Node}

/-- A tree of the right shape is printed exactly if it has no defect, and then without placeholders. -/
theorem shown (h : Formed (.one .program) n) : n.Shows := by
  refine h.holds (R := fun p _ n => p.Shows n) (fun {p k m parts path} _ takes hparts => ?_) n.at?_nil
  have hnode (hform : hasForm k) : (Node.node k m parts).Shows := by
    have hstrict : (Node.node k m parts).fold Compact.strict = Compact.node k m (parts.map (asPart Compact.strict)) := by
      rw [fold_node]
      exact if_pos (by rw [hform, length_map, hparts.count]; rfl)
    rw [Node.Shows, hstrict, fold_node]
    exact shown_node hform hparts
  cases p with
  | element =>
    intro hhole
    refine hnode ?_
    cases k with
    | plain => cases takes
    | elision => cases hhole
    | _ => rfl
  | _ => exact hnode (by cases k <;> first | rfl | cases takes)

end Formed

/-- A node is free of defects exactly if no way down from it leads to one. -/
theorem Node.isFaultless_iff {n : Node} : n.isFaultless ↔ ∀ path m, n.at? path = some m → m.isDefective = false := by
  refine every_iff.trans (forall₃_congr fun path m _ => ?_)
  cases m with
  | absent => simp [isDefective]
  | _ => simp

end JsMinify
