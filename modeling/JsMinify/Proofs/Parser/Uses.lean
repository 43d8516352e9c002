import JsMinify.Proofs.Node.Functions
import JsMinify.Proofs.Parser.Shapes

/-!
# The uses of names

A name stands as an expression, is declared, or only mentions something: a property, a member, a label. Which of these
it does is told by the node it is a part of (`Kind.use`). `Used` says that all names of a tree are marked accordingly,
`Rule.keepsUses` checks that a rule builds such trees, and `names_marked_by_use` follows for every parsed text. So does
`parse_marked`: a name that is open to renaming stands as an expression or is declared where it stands.
-/

namespace JsMinify

open List

variable {n tree : Node} {text x : String} {k : Kind} {m : Mark} {ps : List Node} {path : Path} {p : Parser} {i : Nat}
  {u : Use} {r : Role}

/-- How a name is used. -/
inductive Use where
  | expression | declaration | mention
  deriving DecidableEq, Repr

namespace Use

def inExpr : Use → Bool
  | .expression => true
  | _ => false

def candidate : Use → Bool
  | .mention => false
  | _ => true

end Use

namespace Kind

/-- A part that is a declared name: of a variable, of what is caught, of a function, or of its parameters. -/
def declaresAt : Kind → Nat → Bool
  | .varDecl, 0 | .catchClause, 0 | .function _, 0 | .function _, 1 => true
  | _, _ => false

/-- A part that mentions something: the name of a property or of a member, a label where it is set or where it is
jumped to, the parameters of a setter. -/
def mentionsAt : Kind → Nat → Bool
  | .dot, 1 | .label, 0 | .breakStmt, 0 | .continueStmt, 0 | .getter, 0 | .setter, 0 | .setter, 1 => true
  | .assign op, 0 => op = ":"
  | _, _ => false

/-- How the names are used that a part consists of. -/
def use (k : Kind) (i : Nat) : Use :=
  if k.declaresAt i then .declaration else if k.mentionsAt i then .mention else .expression

/-- Some part of a node of the kind is no expression. -/
def isSpecific : Kind → Bool
  | .varDecl | .catchClause | .function _ | .dot | .label | .breakStmt | .continueStmt | .getter | .setter
  | .assign _ => true
  | _ => false

theorem use_of_not_specific (h : k.isSpecific = false) (i : Nat) : k.use i = .expression := by
  cases k with
  | varDecl | catchClause | function | dot | label | breakStmt | continueStmt | getter | setter | assign => cases h
  | _ => rfl

theorem use_of_mentionsAt (h : k.mentionsAt i) : k.use i = .mention := by
  have hdeclares : k.declaresAt i = false := by
    cases k with
    | varDecl | catchClause | function => cases h
    | _ => rfl
  rw [use, hdeclares, h]
  rfl

theorem candidate_use (k : Kind) (i : Nat) : (k.use i).candidate = ((k.use i).inExpr || k.declaresAt i) := by
  unfold use
  cases k.declaresAt i with
  | true => rfl
  | false => cases k.mentionsAt i <;> rfl

end Kind

namespace Node

/-- All names of a tree are marked for their use, and those that the tree itself consists of for a given one. No scope is
noted. -/
inductive Used : Use → Node → Prop where
  | absent {u : Use} : Used u .absent
  | seq {u : Use} {ns : List Node} (items : ∀ n ∈ ns, Used u n) : Used u (.seq ns)
  | name {u : Use} {x : String} {m : Mark} (scope : m.scope = none) (inExpr : m.inExpr = u.inExpr)
      (candidate : m.candidate = u.candidate) : Used u (.node (.identifier x) m [])
  | node {u : Use} {k : Kind} {m : Mark} {parts : List Node} (scope : m.scope = none) (kind : ∀ x, k ≠ .identifier x)
      (parted : ∀ i part, parts[i]? = some part → Used (k.use i) part) : Used u (.node k m parts)

theorem Used.items (h : Used u n) : ∀ x ∈ n.items, Used u x := by
  cases h with
  | seq items => exact items
  | _ => simp [Node.items]

theorem Used.inParens (h : Used u n) : Used u n.inParens := by
  cases h with
  | absent => exact .absent
  | seq items => exact .seq items
  | name scope inExpr candidate => exact .name scope inExpr candidate
  | node scope kind parted => exact .node scope kind parted

/-- A name with other marks. -/
theorem Used.modifyMark {u' : Use} (h : Used u n) (hn : Formed (.one .name) n) {f : Mark → Mark}
    (hscope : ∀ m, (f m).scope = m.scope) (hf : ∀ m, m.inExpr = u.inExpr → m.candidate = u.candidate →
      (f m).inExpr = u'.inExpr ∧ (f m).candidate = u'.candidate) : Used u' (n.modifyMark f) := by
  obtain ⟨text, m, rfl, -⟩ := hn.name rfl hn.isAbsent_eq_false
  cases h with
  | name scope inExpr candidate =>
    exact .name ((hscope m).trans scope) (hf m inExpr candidate).1 (hf m inExpr candidate).2
  | node _ kind _ => exact absurd rfl (kind text)

theorem Used.asCandidate (h : Used .mention n) (hn : Formed (.one .name) n) : Used .declaration n.asCandidate :=
  h.modifyMark hn (fun _ => rfl) fun _ inExpr _ => ⟨inExpr, rfl⟩

end Node

open Node

namespace Grammar

/-- A nonterminal stands for trees that may stand in some use. -/
def Nonterminal.fits : Nonterminal → Use → Bool
  | .identifier, u | .propertyName, u | .parameters, u => u = .mention
  | .stringLiteral, _ | .numericLiteral, _ => true
  | _, u => u = .expression

/-- What a symbol stands for has its names marked. -/
def Uses : Sym → Value → Prop
  | .t _, _ => True
  | .n x, v => ∀ n, v = .node n → ∀ u, x.fits u = true → Used u n

/-! ## The check of a rule -/

/-- What stands at a position may stand in some use. -/
def fitsAt (right : List Sym) (i : Nat) (u : Use) : Bool :=
  match right[i]? with
  | some (.n x) => x.fits u
  | _ => false

/-- What a slot gives may stand in some use. -/
def Slot.uses (right : List Sym) (u : Use) : Slot → Bool
  | .nothing => true
  | .part i | .items i => fitsAt right i u
  | .name i => right[i]? = some (.n .identifier) && u = .declaration
  | .names i => right[i]? = some (.n .parameters) && u = .declaration
  | .list is => is.all (fitsAt right · u)
  | .leaf form _ => form ≠ .identifier || u = .mention
  | .decl i => right[i]? = some (.n .identifier)
  | .declInit i j => right[i]? = some (.n .identifier) && fitsAt right j .expression
  | .vars i => fitsAt right i .expression

/-- Slots give the parts of a node of a kind. -/
def slotsUse (right : List Sym) (slots : List Slot) (k : Kind) : Bool :=
  if k.isSpecific then slots.all Slot.isSingle && slots.zipIdx.all fun s => s.1.uses right (k.use s.2)
  else slots.all (·.uses right .expression)

def isName : Kind → Bool
  | .identifier _ => true
  | _ => false

/-- An action builds a tree that may stand in some use. -/
def Action.uses (right : List Sym) (u : Use) : Action → Bool
  | .pass i => fitsAt right i u
  | .absent => true
  | .seq slots => slots.all (·.uses right u)
  | .slot s => s.uses right u
  | .make k _ slots => !isName k && slotsUse right slots k
  | .operator form op slots =>
    !(kindsAt right op).isEmpty && (kindsAt right op).all fun t => t.isFixed && slotsUse right slots (form.kind t.spelled)
  | .nameExpr => right[0]? = some (.n .identifier) && u = .expression
  | .parens => fitsAt right 1 u

/-- A rule builds what its left side may stand for. -/
def Rule.keepsUses (r : Rule) : Bool :=
  r.left = .assignmentOperator ||
    [Use.expression, .declaration, .mention].all fun u => !r.left.fits u || r.action.uses r.right u

theorem rules_keep_uses : ∀ r ∈ rules, r.keepsUses := by decide +kernel

/-! ## What a rule builds -/

section

variable {right : List Sym} {args : List Item}
  (h : ItemsHold (fun s v => Suits s v ∧ Uses s v) right args) {slots : List Slot} {part : Node}

include h

theorem suits_args : ItemsHold Suits right args := h.imp fun _ _ hs => hs.1

theorem used_at (hi : fitsAt right i u) : Used u (nodeAt args i) := by
  unfold fitsAt at hi
  split at hi
  · next x hx =>
    unfold nodeAt
    split
    · next n hn => exact (forall₂_arg h hx).2 n hn u hi
    · exact .absent
  · cases hi

theorem name_at (hi : right[i]? = some (.n .identifier)) :
    Used .mention (nodeAt args i) ∧ Formed (.one .name) (nodeAt args i) := by
  refine ⟨used_at h (by rw [fitsAt, hi]; rfl), ?_⟩
  exact (node_at (suits_args h) (by rw [roleAt, hi]; rfl)).2

theorem declaration_used {value : Node} (hi : right[i]? = some (.n .identifier))
    (hv : Used .expression value) : Used u (.node .varDecl (markAt args i) [(nodeAt args i).asCandidate, value]) := by
  obtain ⟨hname, hformed⟩ := name_at h hi
  refine .node rfl (by simp) fun j part hpart => ?_
  rcases j with _ | _ | j
  · cases hpart
    exact hname.asCandidate hformed
  · cases hpart
    exact hv
  · cases hpart

/-- What a slot gives is marked for its use. -/
theorem Slot.fill_used {s : Slot} (hs : s.uses right u) : ∀ n ∈ s.fill args, Used u n := by
  cases s with
  | nothing => simpa [fill] using Used.absent
  | part i => simpa [fill] using used_at h hs
  | name i =>
    simp only [uses, Bool.and_eq_true, decide_eq_true_eq] at hs
    obtain ⟨hi, rfl⟩ := hs
    obtain ⟨hname, hformed⟩ := name_at h hi
    simpa [fill] using hname.asCandidate hformed
  | items i => exact (used_at h hs).items
  | list is =>
    simp only [fill, mem_singleton, forall_eq]
    refine .seq fun n hn => ?_
    obtain ⟨i, hi, hn⟩ := mem_flatMap.1 hn
    exact (used_at h (all_eq_true.1 hs i hi)).items n hn
  | names i =>
    simp only [uses, Bool.and_eq_true, decide_eq_true_eq] at hs
    obtain ⟨hi, rfl⟩ := hs
    simp only [fill, mem_singleton, forall_eq]
    refine .seq fun n hn => ?_
    obtain ⟨x, hx, rfl⟩ := mem_map.1 hn
    have hused : Used .mention (nodeAt args i) := used_at h (by rw [fitsAt, hi]; rfl)
    exact (hused.items x hx).asCandidate (items_at (suits_args h) (by rw [itemsAt, roleAt, hi]; rfl) x hx)
  | leaf form i =>
    simp only [fill, mem_singleton, forall_eq]
    simp only [uses, Bool.or_eq_true, decide_eq_true_eq] at hs
    cases form with
    | identifier =>
      obtain rfl := hs.resolve_left (by simp)
      exact .name rfl rfl rfl
    | _ => exact .node rfl (by simp [LeafForm.kind]) (by simp)
  | decl i =>
    simp only [fill, mem_singleton, forall_eq]
    exact declaration_used h (of_decide_eq_true hs) .absent
  | declInit i j =>
    simp only [uses, Bool.and_eq_true, decide_eq_true_eq] at hs
    simp only [fill, mem_singleton, forall_eq]
    exact declaration_used h hs.1 (used_at h hs.2)
  | vars i =>
    simp only [fill, mem_singleton, forall_eq]
    exact .node rfl (by simp) fun j part hpart => (used_at h hs).items part (mem_of_getElem? hpart)

omit h in
/-- Slots of one part each give the parts in their order. -/
theorem getElem?_fill (hs : slots.all Slot.isSingle)
    (hpart : (slots.flatMap (Slot.fill args))[i]? = some part) : ∃ s, slots[i]? = some s ∧ part ∈ s.fill args := by
  induction slots generalizing i with
  | nil => cases hpart
  | cons s slots ih =>
    rw [all_cons, Bool.and_eq_true] at hs
    obtain ⟨n, hn⟩ := s.fill_single hs.1 args
    rw [flatMap_cons, hn, singleton_append] at hpart
    cases i with
    | zero =>
      cases hpart
      exact ⟨s, rfl, by rw [hn]; exact mem_singleton_self _⟩
    | succ i => exact ih hs.2 hpart

theorem slots_used (hs : slotsUse right slots k)
    (hpart : (slots.flatMap (Slot.fill args))[i]? = some part) : Used (k.use i) part := by
  unfold slotsUse at hs
  cases hk : k.isSpecific with
  | true =>
    rw [hk, if_pos rfl, Bool.and_eq_true] at hs
    obtain ⟨s, hi, hmem⟩ := getElem?_fill hs.1 hpart
    have hpair : (s, i) ∈ slots.zipIdx := mem_zipIdx_iff_getElem?.2 hi
    exact Slot.fill_used h (all_eq_true.1 hs.2 _ hpair) part hmem
  | false =>
    rw [hk, if_neg (by simp)] at hs
    obtain ⟨s, hmem, hfill⟩ := mem_flatMap.1 (mem_of_getElem? hpart)
    rw [Kind.use_of_not_specific hk]
    exact Slot.fill_used h (all_eq_true.1 hs s hmem) part hfill

/-- What an action builds is marked for its use. -/
theorem Action.run_used {a : Action} (ha : a.uses right u) (hn : a.run args = .node n) : Used u n := by
  cases a with
  | pass i =>
    have hnode : nodeAt args i = n := by
      simp only [run] at hn
      simp [nodeAt, hn]
    exact hnode ▸ used_at h ha
  | absent =>
    cases hn
    exact .absent
  | seq slots =>
    cases hn
    refine .seq fun x hx => ?_
    obtain ⟨s, hs, hx⟩ := mem_flatMap.1 hx
    exact Slot.fill_used h (all_eq_true.1 ha s hs) x hx
  | slot s =>
    cases hn
    have hused := Slot.fill_used h ha
    cases hf : s.fill args with
    | nil => exact .absent
    | cons x xs => exact hused x (by simp [hf])
  | make k line slots =>
    cases hn
    simp only [uses, Bool.and_eq_true, Bool.not_eq_true'] at ha
    refine .node rfl ?_ fun i part hpart => slots_used h ha.2 hpart
    rintro x rfl
    cases ha.1
  | operator form op slots =>
    cases hn
    simp only [uses, Bool.and_eq_true, Bool.not_eq_true'] at ha
    obtain ⟨t, htext, hkind, hgenuine⟩ := token_at (suits_args h) ha.1
    have hfixed := all_eq_true.1 ha.2 t.kind hkind
    rw [Bool.and_eq_true] at hfixed
    rw [htext, Token.text_eq_spelled hgenuine hfixed.1]
    refine .node rfl ?_ fun i part hpart => slots_used h hfixed.2 hpart
    cases form <;> simp [OperatorForm.kind]
  | nameExpr =>
    cases hn
    simp only [uses, Bool.and_eq_true, decide_eq_true_eq] at ha
    obtain ⟨hi, rfl⟩ := ha
    obtain ⟨hname, hformed⟩ := name_at h hi
    exact hname.modifyMark hformed (fun _ => rfl) fun _ _ _ => ⟨rfl, rfl⟩
  | parens =>
    cases hn
    exact (used_at h ha).inParens

end

/-- A rule of the grammar builds what its left side may stand for. -/
theorem Rule.run_uses {r : Rule} (hr : r ∈ rules) {args : List Item}
    (h : ItemsHold (fun s v => Suits s v ∧ Uses s v) r.right args) :
    Uses (.n r.left) (r.action.run args) := by
  have hkeeps := rules_keep_uses r hr
  rw [keepsUses, Bool.or_eq_true, decide_eq_true_eq] at hkeeps
  intro n hn u hu
  rcases hkeeps with hop | hkeeps
  · -- An operator stands for a token, never for a tree.
    have hsuits := Rule.run_suits hr (suits_args h)
    rw [hop] at hsuits
    obtain ⟨t, ht, -⟩ := hsuits
    rw [ht] at hn
    cases hn
  · have hall := all_eq_true.1 hkeeps u (by cases u <;> simp)
    rw [hu, Bool.not_true, Bool.false_or] at hall
    exact Action.run_used h hall hn

end Grammar

open Grammar

/-- The names of a parsed tree are marked for their uses. -/
theorem parse_used (h : parse text = (.ok tree, p)) : Used .expression tree := by
  have hboth : Suits (.n .program) (.node tree) ∧ Uses (.n .program) (.node tree) :=
    parse_keeps (P := fun s v => Suits s v ∧ Uses s v) h (fun t ht => ⟨⟨t, rfl, mem_singleton_self _, ht⟩, trivial⟩)
      fun r hr items hitems => ⟨Rule.run_suits hr (suits_args hitems), Rule.run_uses hr hitems⟩
  exact hboth.2 tree rfl .expression rfl

/-! ## Marks -/

theorem Kind.use_ne_declaration (h : bindsNames k = false) (i : Nat) : k.use i ≠ .declaration := by
  have hdeclares : k.declaresAt i = false := by
    cases k with
    | varDecl | catchClause | function => cases h
    | _ => rfl
  rw [use, hdeclares]
  cases k.mentionsAt i <;> simp

/-- A declared name is open to renaming and no expression. -/
theorem Node.Used.declaredName (h : Used .declaration n) (hn : Formed r n) (hr : r.place? = some .name)
    (ha : n.isAbsent = false) : DeclaredName n := by
  obtain ⟨text, m, rfl, -⟩ := hn.name hr ha
  cases h with
  | name scope inExpr candidate => exact ⟨scope, candidate, inExpr⟩
  | node _ kind _ => exact absurd rfl (kind text)

/-- Names that are marked for their uses are marked as the search for scopes needs them. -/
theorem Formed.marked (hn : Formed r n) (h : Used u n) (hu : u ≠ .declaration) : Marked n := by
  induction hn generalizing u with
  | absent => exact .absent
  | seq _ _ ih => exact .seq fun x hx => ih x hx (h.items x hx) hu
  | @node r p k m parts place takes worded count parted ih =>
    cases h with
    | name scope inExpr candidate =>
      refine .name scope ?_
      rw [candidate, inExpr]
      cases u <;> first | rfl | exact absurd rfl hu
    | node scope kind used =>
      cases hk : bindsNames k with
      | false =>
        refine .other scope hk fun x hx => ?_
        obtain ⟨i, hi⟩ := mem_iff_getElem?.1 hx
        exact ih i x hi (used i x hi) (Kind.use_ne_declaration hk i)
      | true =>
        cases k with
        | identifier x => exact absurd rfl (kind x)
        | varDecl | catchClause =>
          obtain ⟨a, b, rfl⟩ := Shape.parts_two count
          exact .declaration scope (by simp) ((used 0 a rfl).declaredName (parted 0 a rfl) rfl (parted 0 a rfl).isAbsent_eq_false)
            (ih 1 b rfl (used 1 b rfl) (by decide))
        | function form =>
          cases form with
          | declared | expression =>
            obtain ⟨a, b, c, rfl⟩ := Shape.parts_three count
            obtain ⟨params, rfl⟩ := Formed.exists_list (p := .name) (parted 1 b rfl)
            obtain ⟨body, rfl⟩ := Formed.exists_list (p := .statement) (parted 2 c rfl)
            refine .function scope ?_ (fun x hx => ?_) (ih 2 _ rfl (used 2 _ rfl) (by decide)).items
            · cases ha : a.isAbsent with
              | true => exact .inl (eq_absent ha)
              | false => exact .inr ((used 0 a rfl).declaredName (parted 0 a rfl) rfl ha)
            · have hx' := (parted 1 _ rfl).items rfl x hx
              exact ((used 1 _ rfl).items x hx).declaredName hx' rfl hx'.isAbsent_eq_false
        | _ => cases hk

theorem parse_marked (h : parse text = (.ok tree, p)) : Marked tree :=
  (parse_formed h).marked (parse_used h) (by decide)

/-! ## Places -/

def Place.isExpression : Place → Bool
  | .expression | .element | .header | .target => true
  | _ => false

/-- The place of the node that a part is, or of the nodes in it. -/
def Role.placeOf (r : Role) : Option Place := r.place?.or r.items?

/-- Where the nodes stand that a part consists of. -/
def Kind.placeAt (k : Kind) (i : Nat) : Option Place := (k.shape.role i).placeOf

namespace Node

/-- The kind of the node that a place is a part of, and the number of the part; `s` if it is no part of a node. -/
def spotFrom : Option (Kind × Nat) → Node → Path → Option (Kind × Nat)
  | s, _, [] => s
  | s, .seq ns, i :: path => spotFrom s (ns.getD i .absent) path
  | _, .node k _ parts, i :: path => spotFrom (some (k, i)) (parts.getD i .absent) path
  | _, .absent, _ :: _ => none

def spot (n : Node) (path : Path) : Option (Kind × Nat) := n.spotFrom none path

def useOf (s : Option (Kind × Nat)) : Use := s.elim .expression fun s => s.1.use s.2

def placeOf (s : Option (Kind × Nat)) : Option Place := s.elim (some .program) fun s => s.1.placeAt s.2

variable {s : Option (Kind × Nat)}

theorem Used.marks (h : Used (useOf s) n) (hx : n.at? path = some (.node (.identifier x) m ps)) :
    m.inExpr = (useOf (n.spotFrom s path)).inExpr ∧ m.candidate = (useOf (n.spotFrom s path)).candidate := by
  induction path generalizing s n with
  | nil =>
    cases hx
    cases h with
    | name _ inExpr candidate => exact ⟨inExpr, candidate⟩
    | node _ kind _ => exact absurd rfl (kind x)
  | cons i path ih =>
    obtain ⟨part, hi, hat⟩ := at?_cons_iff.1 hx
    cases h with
    | absent => cases hi
    | @seq _ ns items =>
      rw [spotFrom, getD_eq_getElem?_getD, show ns[i]? = some part from hi]
      exact ih (items part (mem_of_getElem? hi)) hat
    | name => cases hi
    | @node _ k m' parts _ kind parted =>
      rw [spotFrom, getD_eq_getElem?_getD, show parts[i]? = some part from hi]
      exact ih (s := some (k, i)) (parted i part hi) hat

theorem formed_takes (h : Formed r n) (hr : placeOf s = r.placeOf)
    (hk : n.at? path = some (.node k m ps)) : ∃ p, placeOf (n.spotFrom s path) = some p ∧ p.takes k := by
  induction path generalizing s n r with
  | nil =>
    cases hk
    cases h with
    | @node _ p _ _ _ place takes _ _ _ => exact ⟨p, by rw [spotFrom, hr, Role.placeOf, place]; rfl, takes⟩
  | cons i path ih =>
    obtain ⟨part, hi, hat⟩ := at?_cons_iff.1 hk
    cases h with
    | absent => cases hi
    | @seq _ p ns list items =>
      rw [spotFrom, getD_eq_getElem?_getD, show ns[i]? = some part from hi]
      refine ih (items part (mem_of_getElem? hi)) (hr.trans ?_) hat
      cases r with
      | list | optionalList => exact list
      | _ => cases list
    | @node _ p k' m' parts _ _ _ _ parted =>
      rw [spotFrom, getD_eq_getElem?_getD, show parts[i]? = some part from hi]
      exact ih (s := some (k', i)) (parted i part hi) rfl hat

end Node

/-- Parts in this role are names or keys. -/
def Role.isNaming (r : Role) : Bool := r.placeOf == some .name || r.placeOf == some .key

theorem Shape.isNaming_role {s : Shape} (hfirst : s.first.all (!·.isNaming))
    (hrest : (s.rest.elim Role.nothing .one).isNaming = false) (i : Nat) : (s.role i).isNaming = false := by
  rw [Shape.role, getD_eq_getElem?_getD]
  cases hi : s.first[i]? with
  | none => exact hrest
  | some r => simpa using all_eq_true.1 hfirst r (mem_of_getElem? hi)

/-- Parts that are names or keys declare or mention something, and no others do. -/
theorem Kind.isNaming_role (k : Kind) (i : Nat) : (k.shape.role i).isNaming = (k.use i != .expression) := by
  cases hk : k.isSpecific with
  | false =>
    have hrole : (k.shape.role i).isNaming = false := by
      refine Shape.isNaming_role ?_ ?_ i <;> cases k <;> first | rfl | cases hk
    rw [hrole, use_of_not_specific hk]
    rfl
  | true =>
    cases k with
    | assign op =>
      by_cases hop : op = ":"
      · subst hop
        rcases i with _ | _ | i <;> rfl
      · have huse : (Kind.assign op).use i = .expression := by
          rcases i with _ | i
          · simp [use, declaresAt, mentionsAt, hop]
          · rfl
        rw [huse, shape, if_neg hop]
        exact Shape.isNaming_role rfl rfl i
    | function form => cases form <;> rcases i with _ | _ | _ | i <;> rfl
    | varDecl | catchClause | dot | label | getter => rcases i with _ | _ | i <;> rfl
    | breakStmt | continueStmt => rcases i with _ | i <;> rfl
    | setter => rcases i with _ | _ | _ | i <;> rfl
    | _ => cases hk

/-- A name stands as an expression, where names may stand, exactly in places of expressions. -/
theorem Kind.inExpr_use {p : Place} (hp : k.placeAt i = some p) (hx : p.takes (.identifier x)) :
    (k.use i).inExpr = p.isExpression := by
  have hnaming := k.isNaming_role i
  rw [Role.isNaming, show (k.shape.role i).placeOf = some p from hp] at hnaming
  cases p with
  | name | key =>
    cases hu : k.use i with
    | expression =>
      rw [hu] at hnaming
      cases hnaming
    | _ => rfl
  | expression | element | header | target =>
    cases hu : k.use i with
    | expression => rfl
    | _ =>
      rw [hu] at hnaming
      cases hnaming
  | _ => cases hx

theorem marks_of_spot (h : parse text = (.ok tree, p)) (hx : tree.at? path = some (.node (.identifier x) m ps))
    (hs : tree.spot path = some (k, i)) : m.inExpr = (k.use i).inExpr ∧ m.candidate = (k.use i).candidate := by
  have hmarks := (parse_used h).marks (s := none) hx
  rwa [show tree.spotFrom none path = some (k, i) from hs] at hmarks

/-- A name of a parsed text stands in a part of a node that takes names. -/
theorem place_of_spot (h : parse text = (.ok tree, p)) (hx : tree.at? path = some (.node (.identifier x) m ps)) :
    ∃ k i q, tree.spot path = some (k, i) ∧ k.placeAt i = some q ∧ q.takes (.identifier x) := by
  obtain ⟨q, hq, htakes⟩ := formed_takes (s := none) (parse_formed h) rfl hx
  change placeOf (tree.spot path) = some q at hq
  cases hs : tree.spot path with
  | none =>
    rw [hs] at hq
    cases hq
    cases htakes
  | some s =>
    rw [hs] at hq
    exact ⟨s.1, s.2, q, rfl, hq, htakes⟩

/-- A name of a parsed text is marked as an expression exactly if it stands in a place of expressions, and open to renaming
exactly if it does or is declared there. A name that mentions a property, a member or a label, or is the parameter of a
setter, has neither mark. -/
theorem names_marked_by_use {text : String} {tree : Node} {p : Parser} (h : parse text = (.ok tree, p)) {path : Path}
    {x : String} {m : Mark} {ps : List Node} (hx : tree.at? path = some (.node (.identifier x) m ps)) :
    ∃ k i, tree.spot path = some (k, i) ∧ (m.inExpr = true ↔ (k.placeAt i).any Place.isExpression = true) ∧
      (m.candidate = true ↔ m.inExpr = true ∨ k.declaresAt i = true) ∧
      (k.mentionsAt i = true → m.inExpr = false ∧ m.candidate = false) := by
  obtain ⟨k, i, q, hs, hq, htakes⟩ := place_of_spot h hx
  obtain ⟨hexpr, hcandidate⟩ := marks_of_spot h hx hs
  refine ⟨k, i, hs, ?_, ?_, fun hmention => ?_⟩
  · rw [hexpr, hq, Option.any_some, Kind.inExpr_use hq htakes]
  · rw [hexpr, hcandidate, Kind.candidate_use, Bool.or_eq_true]
  · rw [hexpr, hcandidate, Kind.use_of_mentionsAt hmention]
    exact ⟨rfl, rfl⟩

/-- The parameter of a setter has no mark, and the name that stands for it in the body has both. -/
theorem names_marked_in_setter : ∃ tree p, parse "({set a(b){c.d=b;}});" = (.ok tree, p) ∧
      tree.at? [0, 0, 0, 1, 0] = some (.node (.identifier "b") { line := 1 } []) ∧
      tree.at? [0, 0, 0, 2, 0, 0, 1] = some (.node (.identifier "b") { line := 1, candidate := true, inExpr := true } []) ∧
      (∃ k i, tree.spot [0, 0, 0, 1, 0] = some (k, i) ∧ ¬(k.placeAt i).any Place.isExpression = true ∧ ¬k.declaresAt i = true) ∧
      ∃ k i, tree.spot [0, 0, 0, 2, 0, 0, 1] = some (k, i) ∧ (k.placeAt i).any Place.isExpression = true := by
  obtain ⟨tree, p, hparse, htest⟩ := exists_of_test "({set a(b){c.d=b;}});"
    (fun tree => tree.at? [0, 0, 0, 1, 0] = some (.node (.identifier "b") { line := 1 } []) &&
      tree.at? [0, 0, 0, 2, 0, 0, 1] = some (.node (.identifier "b") { line := 1, candidate := true, inExpr := true } []))
    (by decide +kernel)
  simp only [Bool.and_eq_true, decide_eq_true_eq] at htest
  obtain ⟨hparam, hused⟩ := htest
  obtain ⟨k, i, hspot, hexpr, hcandidate, -⟩ := names_marked_by_use hparse hparam
  obtain ⟨k', i', hspot', hexpr', -, -⟩ := names_marked_by_use hparse hused
  refine ⟨tree, p, hparse, hparam, hused, ⟨k, i, hspot, fun he => ?_, fun hd => ?_⟩, k', i', hspot', hexpr'.1 rfl⟩
  · cases hexpr.2 he
  · cases hcandidate.2 (.inr hd)

end JsMinify
