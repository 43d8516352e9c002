import JsMinify.Proofs.Node.Walk

/-!
# The `if` statements that a node leaves open

`Spelling.openIf` tells that a node is printed with an `if` that has no `else`, outside the branches whose braces are
decided. For the nodes of parsed trees this is a matter of the tree alone (`Formed.leaves_iff`): some `if` without `else`
is below the node, and not in the branch of an `if` with one where the branch is a block of one statement.
-/

namespace JsMinify

open List Node

namespace Spelling

variable (s t : Spelling)

@[simp] theorem openIf_append : (s ++ t).openIf = (s.openIf || t.openIf) := rfl
@[simp] theorem openIf_tok (k : TokenKind) (text : String) : (tok k text).openIf = false := rfl
@[simp] theorem openIf_raw (text : String) : (raw text).openIf = false := rfl
@[simp] theorem openIf_gap : gap.openIf = false := rfl
@[simp] theorem openIf_empty : empty.openIf = false := rfl
@[simp] theorem openIf_under (i : Nat) : (s.under i).openIf = s.openIf := rfl
@[simp] theorem openIf_concat (ss : List Spelling) : (concat ss).openIf = ss.any (·.openIf) := rfl
@[simp] theorem openIf_commas (ss : List Spelling) : (commas ss).openIf = ss.any (·.openIf) := rfl
@[simp] theorem openIf_braced : s.braced.openIf = s.openIf := by simp [braced]
@[simp] theorem openIf_inParens : s.inParens.openIf = s.openIf := by simp [inParens]

@[simp] theorem openIf_parensIf (m : Mark) : (s.parensIf m).openIf = s.openIf := by
  unfold parensIf
  split <;> simp

@[simp] theorem openIf_after (k : TokenKind) (word : String) : (afterWord (tok k word) s).openIf = s.openIf := by
  unfold afterWord
  split <;> simp

@[simp] theorem openIf_bracedOnce : s.bracedOnce.openIf = s.openIf := by
  unfold bracedOnce
  split <;> simp

end Spelling

namespace Spell

open Spelling

variable {n : Node}

@[simp] theorem openIf_op (text : String) : (op text).openIf = false := rfl

@[simp] theorem openIf_operator (text : String) (right : Node) : (operator text right).openIf = false := by
  unfold operator
  split
  · rfl
  · split <;> rfl

@[simp] theorem openIf_jumpTarget (n : Node) : (jumpTarget n).openIf = false := by
  unfold jumpTarget
  split <;> rfl

@[simp] theorem any_numbered (i : Nat) (ss : List Spelling) : (numbered i ss).any (·.openIf) = ss.any (·.openIf) := by
  induction ss generalizing i with
  | nil => rfl
  | cons s ss ih => rw [numbered, any_cons, any_cons, ih, openIf_under]

theorem openIf_of_isAbsent (h : n.isAbsent) : n.spell.openIf = false := by
  rw [eq_absent h]
  rfl

theorem openIf_of_isElision (h : n.isElision) : n.spell.openIf = false := by
  unfold isElision at h
  split at h
  · rw [spell_node]
    rfl
  · cases h

theorem openIf_of_memberName? {name : String} (h : memberName? n = some name) : n.spell.openIf = false := by
  unfold memberName? at h
  split at h
  · rw [spell_node]
    rfl
  · cases h

theorem openIf_name {r : Role} (h : Formed r n) (hr : r.place? = some .name) : n.spell.openIf = false := by
  cases ha : n.isAbsent with
  | true => exact openIf_of_isAbsent ha
  | false =>
    obtain ⟨text, m, rfl, -⟩ := h.name hr ha
    rw [spell_node]
    rfl

@[simp] theorem any_present (i : Nat) (ns : List Node) :
    (present i (ns.map (asPart algebra))).any (·.openIf) = ns.any (·.spell.openIf) := by
  induction ns generalizing i with
  | nil => rfl
  | cons n ns ih =>
    rw [map_cons, present, any_cons]
    split
    · next ha => rw [ih, openIf_of_isAbsent (n := n) ha, Bool.false_or]
    · rw [any_cons, ih]
      rfl

@[simp] theorem any_items (i : Nat) (n : Node) :
    (items i (asPart algebra n)).any (·.openIf) = n.items.any (·.spell.openIf) := by
  simp only [items, any_map, asPart]
  exact (any_numbered 0 _).trans (by simp [Function.comp_def])

@[simp] theorem openIf_optional (lead : Spelling) (i : Nat) (n : Node) :
    (optional lead i (asPart algebra n)).openIf = (!n.isAbsent && lead.openIf || n.spell.openIf) := by
  unfold optional
  rw [asPart_node]
  split
  · next ha => simp [ha, openIf_of_isAbsent ha]
  · next ha => simp [ha]

@[simp] theorem openIf_arrayItems (i : Nat) (ns : List Node) :
    (arrayItems i (ns.map (asPart algebra))).openIf = ns.any (·.spell.openIf) := by
  induction ns generalizing i with
  | nil => rfl
  | cons n ns ih =>
    rw [map_cons, arrayItems, any_cons]
    split
    · next he => rw [Spelling.openIf_append, openIf_tok, ih, openIf_of_isElision (n := n) he]
    · split
      · next hns =>
        obtain rfl : ns = [] := by simpa using hns
        simp [asPart]
      · simp [ih, asPart]

end Spell

/-- An `if` without `else` is left open in a node or in a sequence. -/
def Node.leaves (n : Node) : Bool := n.spell.openIf || n.items.any (·.spell.openIf)

open Spell

variable {n x : Node} {r : Role} {k : Kind} {m : Mark} {parts : List Node}

theorem Formed.leaves_eq_openIf (h : Formed r n) (hr : r.items? = none) : leaves n = n.spell.openIf := by
  cases h with
  | seq list => cases hr.symm.trans list
  | _ => exact Bool.or_false _

theorem Formed.leaves_eq_any (h : Formed r n) (hr : r.place? = none) : leaves n = n.items.any (·.spell.openIf) := by
  cases h with
  | node place => cases hr.symm.trans place
  | _ => rfl

theorem any_leaves (h : ∀ x ∈ parts, leaves x = x.spell.openIf) : parts.any leaves = parts.any (·.spell.openIf) := by
  rw [Bool.eq_iff_iff, any_eq_true, any_eq_true]
  exact exists_congr fun x => and_congr_right fun hx => by rw [h x hx]

attribute [local simp] Spell.node Algebra.part

theorem Formed.openIf_flat (h : Formed r (.node k m parts)) (hk : k ≠ .ifStmt) (hs : k.shape.isFlat) :
    (Node.node k m parts).spell.openIf = parts.any (·.spell.openIf) := by
  rw [spell_node]
  cases h with
  | node place takes worded count parted =>
    cases k with
    | ifStmt => exact absurd rfl hk
    | getter | setter | newExpr | switchStmt => cases hs
    | function form => cases form <;> cases hs
    | program | varStatement | array | object | defaultClause => simp [Function.comp_def]
    | block =>
      rw [← any_present 0 parts]
      simp only [Spell.node]
      rcases present 0 (parts.map (asPart algebra)) with _ | ⟨s, _ | ⟨t, ss⟩⟩ <;> simp
    | call | caseClause =>
      cases parts with
      | nil => cases count
      | cons a parts => simp [Function.comp_def]
    | bracket =>
      obtain ⟨a, b, rfl⟩ := Shape.parts_two count
      cases hb : memberName? b with
      | none => simp [hb]
      | some name => simp [hb, openIf_of_memberName? hb]
    | assign op =>
      obtain ⟨p, -, hshape⟩ := Kind.shape_assign op
      rw [hshape] at count
      obtain ⟨a, b, rfl⟩ := Shape.parts_two count
      simp
    | varDecl | dot | binary | comma | doWhile | whileStmt | withStmt | label | catchClause =>
      obtain ⟨a, b, rfl⟩ := Shape.parts_two count
      simp [Bool.or_comm]
    | exprStmt | throwStmt | finallyClause | unary =>
      obtain ⟨a, rfl⟩ := Shape.parts_one count
      simp [apply_ite Spelling.openIf]
    | returnStmt =>
      obtain ⟨a, rfl⟩ := Shape.parts_one count
      cases ha : a.isAbsent with
      | true => simp [ha, openIf_of_isAbsent ha]
      | false => simp [ha]
    | continueStmt | breakStmt =>
      obtain ⟨a, rfl⟩ := Shape.parts_one count
      simp [apply_ite Spelling.openIf, openIf_name (parted 0 a rfl) rfl]
    | conditional | forIn | tryStmt =>
      obtain ⟨a, b, c, rfl⟩ := Shape.parts_three count
      simp [Bool.or_assoc, apply_ite Spelling.openIf]
    | forStmt =>
      obtain ⟨a, b, c, d, rfl⟩ := Shape.parts_four count
      simp [Bool.or_assoc, apply_ite Spelling.openIf]
    | _ =>
      obtain rfl := Shape.parts_none count
      simp

theorem Formed.openIf_node (h : Formed r (.node k m parts)) (hk : k ≠ .ifStmt) :
    (Node.node k m parts).spell.openIf = parts.any leaves := by
  have hvalue {i : Nat} {x : Node} (hx : parts[i]? = some x) := (h.part i hx).leaves_eq_openIf
  have hlist {i : Nat} {x : Node} (hx : parts[i]? = some x) := (h.part i hx).leaves_eq_any
  by_cases hs : k.shape.isFlat
  · rw [h.openIf_flat hk hs, any_leaves fun x hx => ?_]
    obtain ⟨i, hi⟩ := mem_iff_getElem?.1 hx
    exact hvalue hi (Shape.items?_role hs i)
  · rw [spell_node]
    cases h with
    | node _ _ _ count _ =>
      cases k with
      | getter | newExpr =>
        obtain ⟨a, b, rfl⟩ := Shape.parts_two count
        simp [hvalue (i := 0) rfl rfl, hlist (i := 1) rfl rfl]
      | setter =>
        obtain ⟨a, b, c, rfl⟩ := Shape.parts_three count
        simp [hvalue (i := 0) rfl rfl, hlist (i := 1) rfl rfl, hlist (i := 2) rfl rfl, Bool.or_assoc]
      | switchStmt =>
        obtain ⟨a, b, c, rfl⟩ := Shape.parts_three count
        simp [hvalue (i := 0) rfl rfl, hlist (i := 1) rfl rfl, hvalue (i := 2) rfl rfl]
      | function form =>
        cases form with
        | declared | expression =>
          obtain ⟨a, b, c, rfl⟩ := Shape.parts_three count
          simp [hvalue (i := 0) rfl rfl, hlist (i := 1) rfl rfl, hlist (i := 2) rfl rfl, Bool.or_assoc]
      | assign op => exact absurd (Kind.isFlat_assign op) hs
      | _ => exact absurd rfl hs

theorem openIf_branch (s : Spelling) : s.branch.openIf = false := by
  unfold Spelling.branch
  split
  · rfl
  · next h => simpa using h

theorem openIf_ifStmt (m : Mark) (a b c : Node) : (Node.node .ifStmt m [a, b, c]).spell.openIf =
    (a.spell.openIf || (c.isAbsent || !b.isSingleBlock && b.spell.openIf || c.spell.openIf)) := by
  rw [spell_node]
  cases hc : c.isAbsent with
  | true => simp [hc]
  | false => cases hb : b.isSingleBlock <;> simp [hc, hb, openIf_branch, Bool.or_assoc]

/-! ## The `if` statements that count -/

namespace Node

def isLoneIf : Node → Bool
  | .node .ifStmt _ [_, _, no] => no.isAbsent
  | _ => false

/-- An `if` with `else` whose branch is a block of one statement. -/
def guardsBranch : Node → Bool
  | .node .ifStmt _ [_, yes, no] => !no.isAbsent && yes.isSingleBlock
  | _ => false

/-- The node holds an `if` without `else`, outside the branches of those with one where the branch is a block of one
statement. -/
def LeavesIf (n : Node) : Prop :=
  ∃ path x, n.at? path = some x ∧ x.isLoneIf = true ∧
    ∀ front back above, path = front ++ 1 :: back → n.at? front = some above → above.guardsBranch = false

theorem leavesIf_iff : n.LeavesIf ↔ n.isLoneIf ∨
    ∃ (i : Nat) (a : Node), n.inner[i]? = some a ∧ (i = 1 → n.guardsBranch = false) ∧ a.LeavesIf := by
  constructor
  · rintro ⟨path, x, hx, hlone, hout⟩
    cases path with
    | nil =>
      simp only [at?, Option.some.injEq] at hx
      exact .inl (hx ▸ hlone)
    | cons i path =>
      obtain ⟨a, ha, hx⟩ := at?_cons_iff.1 hx
      refine .inr ⟨i, a, ha, fun hi => hout [] path n (by rw [hi]; rfl) (by simp [at?]), path, x, hx, hlone, ?_⟩
      rintro front back above rfl habove
      exact hout (i :: front) back above rfl (by rw [at?_cons, ha]; exact habove)
  · rintro (hlone | ⟨i, a, ha, hguard, path, x, hx, hlone, hout⟩)
    · refine ⟨[], n, by simp [at?], hlone, fun front back above h => ?_⟩
      simp at h
    · refine ⟨i :: path, x, by rw [at?_cons, ha]; exact hx, hlone, fun front back above h habove => ?_⟩
      cases front with
      | nil =>
        obtain ⟨rfl, rfl⟩ := List.cons.inj h
        simp only [at?, Option.some.injEq] at habove
        exact habove ▸ hguard rfl
      | cons j front =>
        obtain ⟨rfl, rfl⟩ := List.cons.inj h
        rw [at?_cons, ha] at habove
        exact hout front back above rfl habove

end Node

/-- Where no branch is a single block, what is inside decides. -/
theorem leavesIf_iff_any (hlone : n.isLoneIf = false) (hguard : n.guardsBranch = false)
    (h : ∀ x ∈ n.inner, leaves x ↔ x.LeavesIf) : n.inner.any leaves ↔ n.LeavesIf := by
  rw [leavesIf_iff, hlone, any_eq_true]
  constructor
  · rintro ⟨x, hx, hleaves⟩
    obtain ⟨i, hi⟩ := mem_iff_getElem?.1 hx
    exact .inr ⟨i, x, hi, fun _ => hguard, (h x hx).1 hleaves⟩
  · rintro (hcases | ⟨i, x, hi, -, hx⟩)
    · cases hcases
    · exact ⟨x, mem_of_getElem? hi, (h x (mem_of_getElem? hi)).2 hx⟩

theorem leavesIf_ifStmt {a b c : Node} (h : ∀ x ∈ [a, b, c], leaves x ↔ x.LeavesIf) :
    (leaves a || (c.isAbsent || !b.isSingleBlock && leaves b || leaves c)) ↔ (Node.node .ifStmt m [a, b, c]).LeavesIf := by
  simp only [forall_mem_cons, not_mem_nil, false_implies, implies_true, and_true] at h
  obtain ⟨ha, hb, hc⟩ := h
  rw [leavesIf_iff]
  cases hno : c.isAbsent with
  | true => simp [isLoneIf, hno]
  | false =>
    have hguard : (Node.node .ifStmt m [a, b, c]).guardsBranch = b.isSingleBlock := by simp [guardsBranch, hno]
    simp only [Bool.false_or, Bool.or_eq_true, Bool.and_eq_true, Bool.not_eq_true', ha, hb, hc, isLoneIf, hno, hguard,
      Bool.false_eq_true, false_or, Node.inner]
    constructor
    · rintro (ha | ⟨hsingle, hb⟩ | hc)
      · exact ⟨0, a, rfl, fun h => absurd h (by decide), ha⟩
      · exact ⟨1, b, rfl, fun _ => hsingle, hb⟩
      · exact ⟨2, c, rfl, fun h => absurd h (by decide), hc⟩
    · rintro ⟨_ | _ | _ | i, x, hx, hsingle, hleaves⟩
      · exact .inl (Option.some.inj hx ▸ hleaves)
      · exact .inr (.inl ⟨hsingle rfl, Option.some.inj hx ▸ hleaves⟩)
      · exact .inr (.inr (Option.some.inj hx ▸ hleaves))
      · cases hx

theorem Formed.leaves_iff (h : Formed r n) : leaves n ↔ n.LeavesIf := by
  induction h with
  | absent => exact leavesIf_iff_any (n := .absent) rfl rfl (fun x hx => absurd hx not_mem_nil)
  | @seq r p ns list items ih =>
    rw [← leavesIf_iff_any (n := .seq ns) rfl rfl ih, Node.inner, any_leaves fun x hx => (items x hx).leaves_eq_openIf rfl]
    rfl
  | @node r p k m parts place takes worded count parted ih =>
    have hnode : Formed r (.node k m parts) := .node place takes worded count parted
    have hall : ∀ x ∈ parts, leaves x ↔ x.LeavesIf := fun x hx => by
      obtain ⟨i, hi⟩ := mem_iff_getElem?.1 hx
      exact ih i x hi
    rw [hnode.leaves_eq_openIf (by cases r <;> first | rfl | cases place)]
    by_cases hk : k = .ifStmt
    · subst hk
      obtain ⟨a, b, c, rfl⟩ := Shape.parts_three count
      rw [← leavesIf_ifStmt hall, openIf_ifStmt, (parted 0 a rfl).leaves_eq_openIf rfl,
        (parted 1 b rfl).leaves_eq_openIf rfl, (parted 2 c rfl).leaves_eq_openIf rfl]
    · rw [hnode.openIf_node hk]
      refine leavesIf_iff_any (n := .node k m parts) ?_ ?_ hall
      all_goals cases k <;> first | rfl | exact absurd rfl hk

end JsMinify
