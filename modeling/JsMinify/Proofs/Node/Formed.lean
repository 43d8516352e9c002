import JsMinify.Proofs.Node.Names
import JsMinify.Proofs.Lexer.Whole

/-!
# The shape of trees

`Kind.shape` says which parts a node of a kind has, and `Formed` that a whole tree is made up in this way:
every part stands in a place that takes its kind, and the words of a node are lexemes. `Formed.at?` leads
down to any node of a tree.
-/

namespace JsMinify

open List

variable {parts : List Node} {n : Node} {k : Kind} {p : Place} {r : Role}

/-- Where a node may stand. -/
inductive Place where
  | program | statement | block | expression | name
  /-- The name of a property. -/
  | key
  /-- An item of an array. -/
  | element
  | property | declaration
  /-- The beginning of a `for` header. -/
  | header
  /-- What a loop over properties assigns to. -/
  | target
  | caseClause | defaultClause | catchClause | finallyClause
  deriving DecidableEq, Repr

def Kind.isStatement : Kind → Bool
  | .block | .varStatement | .emptyStmt _ | .exprStmt | .ifStmt | .doWhile | .whileStmt | .forStmt | .forIn
  | .continueStmt | .breakStmt | .returnStmt | .withStmt | .switchStmt | .label | .throwStmt | .tryStmt
  | .debugger _ | .function .declared => true
  | _ => false

def Kind.isExpression : Kind → Bool
  | .identifier _ | .number _ | .string _ | .regex _ | .boolean _ | .null _ | .this | .array | .object
  | .newExpr | .call | .bracket | .dot | .unary _ _ | .binary _ | .conditional | .comma
  | .function .expression => true
  | .assign op => op != ":"
  | _ => false

namespace Place

/-- Nodes of a kind may stand here. -/
def takes : Place → Kind → Bool
  | .program, .program | .block, .block | .name, .identifier _ | .key, .identifier _ | .key, .string _
  | .key, .number _ | .element, .elision _ | .property, .getter | .property, .setter
  | .declaration, .varDecl | .header, .varStatement | .target, .varDecl | .caseClause, .caseClause
  | .defaultClause, .defaultClause | .catchClause, .catchClause | .finallyClause, .finallyClause => true
  | .property, .assign op => op == ":"
  | .statement, k => k.isStatement
  | .expression, k | .element, k | .header, k | .target, k => k.isExpression
  | _, _ => false

/-- What may stand in the first place may stand in the second. -/
def le : Place → Place → Bool
  | .name, .key | .name, .expression | .key, .expression | .expression, .element | .expression, .header
  | .expression, .target | .block, .statement => true
  | p, q => p == q

theorem takes_of_le {q : Place} (h : p.le q) (hk : p.takes k) : q.takes k := by
  unfold le at h
  split at h
  · cases k <;> first | rfl | cases hk
  · cases k <;> first | rfl | cases hk
  · cases k <;> first | rfl | cases hk
  · cases k <;> first | rfl | exact hk
  · cases k <;> first | rfl | exact hk
  · cases k <;> first | rfl | exact hk
  · cases k <;> first | rfl | cases hk
  · rwa [← beq_iff_eq.1 h]

end Place

/-- What a part of a node is: a node in some place, a sequence of such nodes, or nothing. -/
inductive Role where
  | nothing
  | one (p : Place)
  | optional (p : Place)
  | list (p : Place)
  | optionalList (p : Place)
  deriving DecidableEq, Repr

namespace Role

/-- The part may be left out. -/
def omissible : Role → Bool
  | .nothing | .optional _ | .optionalList _ => true
  | _ => false

/-- The place of the node that the part is. -/
def place? : Role → Option Place
  | .one p | .optional p => some p
  | _ => none

/-- The place of the nodes in the sequence that the part is. -/
def items? : Role → Option Place
  | .list p | .optionalList p => some p
  | _ => none

/-- What has the first role may have the second. -/
def le (r r' : Role) : Bool :=
  (!r.omissible || r'.omissible) && (r.place?.all fun p => r'.place?.any p.le) && (r.items?.all fun p => r'.items? == some p)

end Role

/-- The parts of a node: some in fixed roles, then any number of nodes in one place if there is one. -/
structure Shape where
  first : List Role
  rest : Option Place := none

/-- The role of a part with a number. -/
def Shape.role (s : Shape) (i : Nat) : Role := s.first.getD i (s.rest.elim .nothing .one)

/-- A node may have so many parts. -/
def Shape.admits (s : Shape) (n : Nat) : Bool :=
  if s.rest.isSome then s.first.length ≤ n else n == s.first.length

namespace Shape

theorem parts_none (h : (Shape.mk [] none).admits parts.length) : parts = [] :=
  length_eq_zero_iff.1 (beq_iff_eq.1 h)

theorem parts_one (h : (Shape.mk [r] none).admits parts.length) : ∃ a, parts = [a] :=
  length_eq_one_iff.1 (beq_iff_eq.1 h)

theorem parts_two {r' : Role} (h : (Shape.mk [r, r'] none).admits parts.length) : ∃ a b, parts = [a, b] :=
  length_eq_two.1 (beq_iff_eq.1 h)

theorem parts_three {r' r'' : Role} (h : (Shape.mk [r, r', r''] none).admits parts.length) : ∃ a b c, parts = [a, b, c] :=
  length_eq_three.1 (beq_iff_eq.1 h)

theorem parts_four {r₁ r₂ r₃ r₄ : Role} (h : (Shape.mk [r₁, r₂, r₃, r₄] none).admits parts.length) :
    ∃ a b c d, parts = [a, b, c, d] := by
  obtain ⟨a, rest, rfl⟩ := exists_cons_of_length_eq_add_one (beq_iff_eq.1 h)
  obtain ⟨b, c, d, rfl⟩ := length_eq_three.1 (Nat.succ.inj (beq_iff_eq.1 h))
  exact ⟨a, b, c, d, rfl⟩

theorem parts_cons (h : (Shape.mk [r] (some p)).admits parts.length) : ∃ a rest, parts = a :: rest :=
  exists_cons_of_ne_nil fun hnil => by
    rw [hnil] at h
    cases h

/-- A role of a node with so many parts is one of those in its shape. -/
theorem role_le {s : Shape} {r' : Role} {n i : Nat} (hn : s.admits n) (hi : i < n)
    (h : s.first.all (·.le r') && s.rest.all fun p => (Role.one p).le r') : (s.role i).le r' := by
  rw [Bool.and_eq_true, all_eq_true] at h
  rw [role, getD_eq_getElem?_getD]
  cases hfirst : s.first[i]? with
  | some r => exact h.1 r (mem_of_getElem? hfirst)
  | none =>
    cases hrest : s.rest with
    | some p => simpa [hrest] using h.2
    | none =>
      rw [admits, hrest] at hn
      exact absurd (beq_iff_eq.1 hn) (Nat.ne_of_gt (Nat.lt_of_le_of_lt (getElem?_eq_none_iff.1 hfirst) hi))

end Shape

namespace Kind

/-- The parts of a node of a kind. -/
def shape : Kind → Shape
  | .program | .block | .defaultClause => ⟨[], some .statement⟩
  | .varStatement => ⟨[], some .declaration⟩
  | .array => ⟨[], some .element⟩
  | .object => ⟨[], some .property⟩
  | .call => ⟨[.one .expression], some .expression⟩
  | .caseClause => ⟨[.one .expression], some .statement⟩
  | .varDecl => ⟨[.one .name, .optional .expression], none⟩
  | .getter => ⟨[.one .key, .optionalList .statement], none⟩
  | .setter => ⟨[.one .key, .list .name, .optionalList .statement], none⟩
  | .newExpr => ⟨[.one .expression, .list .expression], none⟩
  | .dot => ⟨[.one .expression, .one .name], none⟩
  | .assign op => if op = ":" then ⟨[.one .key, .one .expression], none⟩
    else ⟨[.one .expression, .one .expression], none⟩
  | .bracket | .binary _ | .comma => ⟨[.one .expression, .one .expression], none⟩
  | .conditional => ⟨[.one .expression, .one .expression, .one .expression], none⟩
  | .function .declared => ⟨[.one .name, .list .name, .list .statement], none⟩
  | .function .expression => ⟨[.optional .name, .list .name, .list .statement], none⟩
  | .unary _ _ | .exprStmt | .throwStmt => ⟨[.one .expression], none⟩
  | .ifStmt => ⟨[.one .expression, .one .statement, .optional .statement], none⟩
  | .doWhile | .whileStmt | .withStmt => ⟨[.one .expression, .one .statement], none⟩
  | .forStmt =>
    ⟨[.optional .header, .optional .expression, .optional .expression, .one .statement], none⟩
  | .forIn => ⟨[.one .target, .one .expression, .one .statement], none⟩
  | .continueStmt | .breakStmt => ⟨[.optional .name], none⟩
  | .returnStmt => ⟨[.optional .expression], none⟩
  | .label => ⟨[.one .name, .one .statement], none⟩
  | .switchStmt => ⟨[.one .expression, .list .caseClause, .optional .defaultClause], none⟩
  | .tryStmt => ⟨[.one .block, .optional .catchClause, .optional .finallyClause], none⟩
  | .catchClause => ⟨[.one .name, .one .block], none⟩
  | .finallyClause => ⟨[.one .block], none⟩
  | .plain | .identifier _ | .number _ | .string _ | .regex _ | .boolean _ | .null _ | .this | .elision _
  | .emptyStmt _ | .debugger _ => ⟨[], none⟩

theorem shape_assign (text : String) : ∃ p, (p = .key ∨ p = .expression) ∧
    (Kind.assign text).shape = ⟨[.one p, .one .expression], none⟩ := by
  by_cases h : text = ":"
  · exact ⟨.key, .inl rfl, if_pos h⟩
  · exact ⟨.expression, .inr rfl, if_neg h⟩

def assignOps : List String := ["=", "*=", "/=", "%=", "+=", "-=", "<<=", ">>=", ">>>=", "&=", "^=", "|="]

def prefixOps : List String := ["delete", "void", "typeof", "++", "--", "+", "-", "~", "!"]

def updateOps : List String := ["++", "--"]

def binaryOps : List String :=
  ["*", "/", "%", "+", "-", "<<", ">>", ">>>", "<", ">", "<=", ">=", "instanceof", "in", "==", "!=", "===",
    "!==", "&", "^", "|", "&&", "||"]

/-- The words of a node are those that a node of its kind can have. -/
def worded : Kind → Bool
  | .identifier s => Lexeme.isWhole .identifier s.toList
  | .number s => Lexeme.isWhole .number s.toList
  | .string s => Lexeme.isWhole .string s.toList
  | .regex s => Lexeme.isWhole .regex s.toList
  | .boolean s => s == "true" || s == "false"
  | .null s => s == "null"
  | .elision s => s == ","
  | .emptyStmt s => s == ";"
  | .debugger s => s == "debugger"
  | .assign op => op == ":" || assignOps.contains op
  | .unary op after => if after then updateOps.contains op else prefixOps.contains op
  | .binary op => binaryOps.contains op
  | _ => true

end Kind

/-- What the part of a node in some role is made up of. -/
inductive Formed : Role → Node → Prop where
  | absent {r : Role} (omissible : r.omissible = true) : Formed r .absent
  | seq {r : Role} {p : Place} {ns : List Node} (list : r.items? = some p)
      (items : ∀ n ∈ ns, Formed (.one p) n) : Formed r (.seq ns)
  | node {r : Role} {p : Place} {k : Kind} {m : Mark} {parts : List Node} (place : r.place? = some p)
      (takes : p.takes k = true) (worded : k.worded = true) (count : k.shape.admits parts.length = true)
      (parted : ∀ i part, parts[i]? = some part → Formed (k.shape.role i) part) : Formed r (.node k m parts)

theorem forall_mem_of_getElem? {P : Node → Prop} (h : ∀ (i : Nat) x, parts[i]? = some x → P x) : ∀ x ∈ parts, P x := by
  intro x hx
  obtain ⟨i, hi⟩ := mem_iff_getElem?.1 hx
  exact h i x hi

namespace Formed

theorem mono {r' : Role} (h : Formed r n) (hr : r.le r') : Formed r' n := by
  simp only [Role.le, Bool.and_eq_true, Bool.or_eq_true, Bool.not_eq_true'] at hr
  obtain ⟨⟨homit, hplace⟩, hitems⟩ := hr
  cases h with
  | absent omissible => exact .absent (homit.resolve_left (by simp [omissible]))
  | @seq _ p ns list items =>
    rw [list] at hitems
    exact .seq (beq_iff_eq.1 hitems) items
  | @node _ p k m parts place takes worded count parted =>
    rw [place] at hplace
    obtain ⟨q, hq, hle⟩ := (Option.any_eq_true _ _).1 hplace
    exact .node hq (Place.takes_of_le hle takes) worded count parted

theorem modifyMark (h : Formed r n) (f : Mark → Mark) : Formed r (n.modifyMark f) := by
  cases h with
  | absent omissible => exact .absent omissible
  | seq list items => exact .seq list items
  | node place takes worded count parted => exact .node place takes worded count parted

theorem items (h : Formed r n) (hr : r.items? = some p) : ∀ x ∈ n.items, Formed (.one p) x := by
  cases h with
  | absent _ => simp [Node.items]
  | @seq _ q ns list items =>
    cases list.symm.trans hr
    exact items
  | node _ _ _ _ _ => simp [Node.items]

theorem isAbsent_eq_false (h : Formed (.one p) n) : n.isAbsent = false := by
  cases h with
  | absent omissible => cases omissible
  | _ => rfl

theorem name (hr : r.place? = some .name) (h : Formed r n) (ha : n.isAbsent = false) :
    ∃ text m, n = .node (.identifier text) m [] ∧ Lexeme.isWhole .identifier text.toList := by
  cases h with
  | absent _ => cases ha
  | seq list _ =>
    cases r with
    | one | optional => cases list
    | _ => cases hr
  | @node _ p k m parts place takes worded count _ =>
    cases place.symm.trans hr
    cases k with
    | identifier text =>
      obtain rfl := Shape.parts_none count
      exact ⟨text, m, rfl, worded⟩
    | _ => cases takes

theorem part {m : Mark} (h : Formed r (.node k m parts)) {x : Node} (i : Nat) (hx : parts[i]? = some x) :
    Formed (k.shape.role i) x := by
  cases h with
  | node _ _ _ _ parted => exact parted i x hx

/-- Parts that may be any in number stand all in one place. -/
theorem of_rest (hk : k.shape = ⟨[], some p⟩) (h : ∀ i x, parts[i]? = some x → Formed (k.shape.role i) x) :
    ∀ x ∈ parts, Formed (.one p) x := by
  rw [hk] at h
  exact forall_mem_of_getElem? h

/-- Every node below a formed one is formed. -/
theorem at? {m : Node} (h : Formed r n) {path : Path} (hm : n.at? path = some m) : ∃ r', Formed r' m := by
  induction path generalizing r n with
  | nil =>
    cases Node.at?_nil n ▸ hm
    exact ⟨r, h⟩
  | cons i path ih =>
    obtain ⟨x, hx, hat⟩ := Node.at?_cons_iff.1 hm
    cases h with
    | absent _ => cases hx
    | seq _ items => exact ih (items x (mem_of_getElem? hx)) hat
    | node _ _ _ _ parted => exact ih (parted i x hx) hat

theorem exists_node (h : Formed (.one p) n) :
    ∃ k m parts, n = .node k m parts ∧ p.takes k ∧ k.worded ∧ k.shape.admits parts.length ∧
      ∀ i x, parts[i]? = some x → Formed (k.shape.role i) x := by
  cases h with
  | absent omissible => cases omissible
  | seq list _ => cases list
  | node place takes worded count parted =>
    cases place
    exact ⟨_, _, _, rfl, takes, worded, count, parted⟩

theorem isElision_eq_false (h : Formed r n) (hr : r.place? = some p) (hp : (p == .element) = false) :
    n.isElision = false := by
  cases h with
  | absent => rfl
  | seq => rfl
  | @node _ q k m parts place takes _ _ _ =>
    obtain rfl := Option.some.inj (place.symm.trans hr)
    cases k with
    | elision => cases q <;> first | exact absurd rfl (beq_eq_false_iff_ne.1 hp) | cases takes
    | _ => rfl

end Formed

/-! ## What holds of the parts -/

/-- A part at the end of a path has what its role asks for, given what nodes have in their places. -/
def Role.Holds (R : Place → Path → Node → Prop) (r : Role) (path : Path) (n : Node) : Prop :=
  match r with
  | .nothing => True
  | .one p => R p path n
  | .optional p => n = .absent ∨ R p path n
  | .list p => ∃ ns, n = .seq ns ∧ ∀ i x, ns[i]? = some x → R p (path ++ [i]) x
  | .optionalList p => n = .absent ∨ ∃ ns, n = .seq ns ∧ ∀ i x, ns[i]? = some x → R p (path ++ [i]) x

theorem of_present {P : Prop} (h : n = .absent ∨ P) (ha : ¬n.isAbsent) : P :=
  h.resolve_left fun hn => ha (by rw [hn]; rfl)

/-- The parts of a node are as its kind asks for, and have what their roles ask for. -/
structure PartsHold (R : Place → Path → Node → Prop) (k : Kind) (parts : List Node) (path : Path) : Prop where
  worded : k.worded = true
  count : k.shape.admits parts.length = true
  parted : ∀ i x, parts[i]? = some x → Formed (k.shape.role i) x
  each : ∀ i x, parts[i]? = some x → (k.shape.role i).Holds R (path ++ [i]) x

section

variable {R R' : Place → Path → Node → Prop} {path : Path}

theorem Role.Holds.mono (hR : ∀ {p path n}, R p path n → R' p path n) (h : r.Holds R path n) : r.Holds R' path n := by
  have hlist : ∀ {p}, (∃ ns, n = .seq ns ∧ ∀ i x, ns[i]? = some x → R p (path ++ [i]) x) →
      ∃ ns, n = .seq ns ∧ ∀ i x, ns[i]? = some x → R' p (path ++ [i]) x := by
    rintro p ⟨ns, rfl, hns⟩
    exact ⟨ns, rfl, fun i x hx => hR (hns i x hx)⟩
  cases r with
  | nothing => trivial
  | one => exact hR h
  | optional => exact Or.imp_right hR h
  | list => exact hlist h
  | optionalList => exact Or.imp_right hlist h

namespace PartsHold

variable {r₁ r₂ r₃ r₄ : Role} (h : PartsHold R k parts path)

include h

theorem one (hk : k.shape = ⟨[r₁], none⟩) : ∃ x, parts = [x] ∧ r₁.Holds R (path ++ [0]) x := by
  obtain ⟨-, count, -, each⟩ := h
  rw [hk] at count each
  obtain ⟨x, rfl⟩ := Shape.parts_one count
  exact ⟨x, rfl, each 0 x rfl⟩

theorem two (hk : k.shape = ⟨[r₁, r₂], none⟩) :
    ∃ x y, parts = [x, y] ∧ r₁.Holds R (path ++ [0]) x ∧ r₂.Holds R (path ++ [1]) y := by
  obtain ⟨-, count, -, each⟩ := h
  rw [hk] at count each
  obtain ⟨x, y, rfl⟩ := Shape.parts_two count
  exact ⟨x, y, rfl, each 0 x rfl, each 1 y rfl⟩

theorem three (hk : k.shape = ⟨[r₁, r₂, r₃], none⟩) : ∃ x y z, parts = [x, y, z] ∧
    r₁.Holds R (path ++ [0]) x ∧ r₂.Holds R (path ++ [1]) y ∧ r₃.Holds R (path ++ [2]) z := by
  obtain ⟨-, count, -, each⟩ := h
  rw [hk] at count each
  obtain ⟨x, y, z, rfl⟩ := Shape.parts_three count
  exact ⟨x, y, z, rfl, each 0 x rfl, each 1 y rfl, each 2 z rfl⟩

end PartsHold

theorem PartsHold.mono (hR : ∀ {p path n}, R p path n → R' p path n) (h : PartsHold R k parts path) :
    PartsHold R' k parts path :=
  ⟨h.worded, h.count, h.parted, fun i x hx => (h.each i x hx).mono hR⟩

/-- Every part of a formed tree has what its role asks for, if a node has it whose parts have it. -/
theorem Formed.holds {tree : Node} (step : ∀ {p k m parts path}, tree.at? path = some (.node k m parts) →
      p.takes k → PartsHold R k parts path → R p path (.node k m parts))
    (h : Formed r n) (hat : tree.at? path = some n) : r.Holds R path n := by
  induction h generalizing path with
  | @absent r omissible =>
    cases r with
    | nothing => trivial
    | optional | optionalList => exact .inl rfl
    | one | list => cases omissible
  | @seq r p ns list items ih =>
    have hitems : ∀ i x, ns[i]? = some x → R p (path ++ [i]) x := fun i x hx =>
      ih x (mem_of_getElem? hx) (Node.at?_inner hat hx)
    cases r with
    | list =>
      cases list
      exact ⟨ns, rfl, hitems⟩
    | optionalList =>
      cases list
      exact .inr ⟨ns, rfl, hitems⟩
    | _ => cases list
  | @node r p k m parts place takes worded count parted ih =>
    have hnode : R p path (.node k m parts) :=
      step hat takes ⟨worded, count, parted, fun i x hx => ih i x hx (Node.at?_inner hat hx)⟩
    cases r with
    | one =>
      cases place
      exact hnode
    | optional =>
      cases place
      exact .inr hnode
    | _ => cases place

end

end JsMinify
