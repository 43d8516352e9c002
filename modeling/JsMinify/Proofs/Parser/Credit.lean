import JsMinify.Proofs.Parser.Stack

/-!
# Chains of reductions

Every symbol on the stack brings some credit, and a reduction uses some up: a rule has more credit on
its right side than on its left (`Rule.pays`). The rule with an empty right side is paid for by the
state that it is used in (`Table.spare`); such states follow tokens and default clauses only. So a
chain of reductions ends (`credit_reduced`), and a new token raises the credit by a fixed amount at most
(`credit_shift`).
-/

namespace JsMinify

open List

variable {i : Nat} {r : Rule}

namespace Grammar

/-- The credit of a nonterminal: more than that of any nonterminal that it can be all of. -/
def Nonterminal.credit : Nonterminal → Nat
  | .expr .primary .noBrace => 21
  | .expr l .noBrace => l.ctorIdx
  | .expr l _ => l.ctorIdx + 1
  | .sourceElements | .caseClauses | .varDecl _ | .arguments | .elision | .property => 1
  | .sourceElementList | .caseClause | .empty => 2
  | .sourceElement => 3
  | .statement => 4
  | .block | .varStatement | .emptyStatement | .exprStatement | .ifStatement | .iteration
  | .continueStatement | .breakStatement | .returnStatement | .withStatement | .switchStatement
  | .labelled | .throwStatement | .tryStatement | .debuggerStatement | .functionDecl => 5
  | .unaryCommon => 15
  | .functionExpr => 20
  | .objectLiteral => 21
  | .identifier | .arrayLiteral | .literal => 22
  | .regexLiteral | .nullLiteral | .numericLiteral | .booleanLiteral | .stringLiteral => 23
  | _ => 0

def Sym.credit : Sym → Nat
  | .t _ => 24
  | .n A => A.credit

def creditOf : List Sym → Nat
  | [] => 0
  | x :: xs => x.credit + creditOf xs

theorem creditOf_append (xs ys : List Sym) : creditOf (xs ++ ys) = creditOf xs + creditOf ys := by
  induction xs with
  | nil => simp [creditOf]
  | cons x xs ih =>
    simp only [cons_append, creditOf, ih]
    omega

theorem creditOf_reverse (xs : List Sym) : creditOf xs.reverse = creditOf xs := by
  induction xs with
  | nil => rfl
  | cons x xs ih =>
    simp only [reverse_cons, creditOf_append, creditOf, ih]
    omega

/-- The most credit of the states that follow a nonterminal. -/
def Nonterminal.spare (A : Nonterminal) : Nat := if A = .defaultClause then 3 else 0

/-- The right side of the rule has more credit than the left side and the state after it. -/
def Rule.pays (r : Rule) : Bool :=
  decide (r.left.credit + r.left.spare < creditOf r.right)

/-- Only the first rule has an empty right side. -/
theorem rules_pay : rules.head? = some ⟨.empty, [], .absent⟩ ∧ ∀ r ∈ rules.tail, r.pays := by decide +kernel

namespace Table

/-- The credit of a state, which pays for the rule with an empty right side. -/
def spare (q : State) : Nat := if (row q).2.all (fun e => e.2 ≠ 0) then 0 else 3

/-- A state with credit was entered by a token or a default clause. -/
theorem spare_entered : ∀ p < stateCount, ∀ s ∈ entry p, spare p = 0 ∨ (match s with
    | .n A => spare p ≤ A.spare
    | .t _ => true : Bool) := by
  decide +kernel

theorem spare_le (q : State) : spare q ≤ 3 := by
  unfold spare
  split <;> omega

theorem spare_of_entry {p : State} {A : Nonterminal} (hp : p < stateCount)
    (h : entry p = some (.n A)) : spare p ≤ A.spare := by
  rcases spare_entered p hp _ h with h0 | hle
  · omega
  · exact of_decide_eq_true hle

/-- The empty rule is used only in states with credit. -/
theorem spare_of_reduction {q : State} {la : Lookahead} (h : (la, 0) ∈ reductions q) : spare q = 3 := by
  obtain ⟨e, he, heq⟩ := mem_map.1 h
  refine if_neg fun hall => ?_
  have hne := of_decide_eq_true (all_eq_true.1 hall e he)
  exact hne (Prod.mk.inj heq).2

/-- A rule pays for itself, or is the empty one. -/
theorem pays_of_rule? (h : rule? i = some r) : r.pays ∨ i = 0 ∧ r.left = .empty ∧ r.right = [] := by
  obtain ⟨hhead, htail⟩ := rules_pay
  rw [rule?_eq] at h
  cases i with
  | zero =>
    rw [← head?_eq_getElem?, hhead] at h
    cases h
    exact .inr ⟨rfl, rfl, rfl⟩
  | succ i =>
    refine .inl (htail r (mem_of_getElem? (i := i) ?_))
    rw [getElem?_tail]
    exact h

end Table

end Grammar

namespace Config

open Grammar

def credit (stack : List Frame) : Nat :=
  creditOf (symbols stack) + Table.spare (stateOf stack)

theorem credit_shift (stack : List Frame) (s : State) (k : TokenKind) (item : Item) :
    credit (⟨s, .t k, item⟩ :: stack) ≤ credit stack + 27 := by
  have hs := Table.spare_le s
  have hk : Sym.credit (.t k) = 24 := rfl
  simp only [credit, symbols, map_cons, creditOf, stateOf, hk]
  omega

variable {c : Config}

/-- The stack falls into the right side of the rule and what is below it. -/
theorem Handle.credit_split (h : c.Handle r) :
    creditOf (symbols c.stack) = creditOf r.right + creditOf (symbols (c.stack.drop r.right.length)) := by
  have hright : symbols (c.stack.take r.right.length) = r.right.reverse := by
    rw [← reverse_eq_iff, symbols, ← map_reverse]
    exact h
  have hsplit : symbols c.stack = symbols (c.stack.take r.right.length) ++ symbols (c.stack.drop r.right.length) := by
    rw [symbols, symbols, symbols, ← map_append, take_append_drop]
  rw [hsplit, creditOf_append, hright, creditOf_reverse]

/-- A reduction uses up some credit. -/
theorem credit_reduced (h : Stacked c.stack) (why : c.Reduces i) (rule : Table.rule? i = some r) (handle : c.Handle r) :
    credit (c.reduced r).stack < credit c.stack := by
  have hedge := h.edge_reduced why rule
  have hspare := Table.spare_of_entry (Table.edge_lt hedge) (Table.edge_entry hedge)
  have hnew : credit (c.reduced r).stack = r.left.credit +
      creditOf (symbols (c.stack.drop r.right.length)) + Table.spare (c.reduced r).state := rfl
  have hold : credit c.stack = creditOf (symbols c.stack) + Table.spare (stateOf c.stack) := rfl
  rw [hnew, hold, handle.credit_split]
  rcases Table.pays_of_rule? rule with hpays | ⟨rfl, hleft, hright⟩
  · have hmore := of_decide_eq_true hpays
    omega
  · -- The empty rule: the state pays for it.
    obtain ⟨la, hla⟩ := why.listed
    rw [state_eq] at hla
    have hpaid := Table.spare_of_reduction hla
    have hcredit : r.left.credit = 2 := by
      rw [hleft]
      rfl
    have hnone : r.left.spare = 0 := by
      rw [hleft]
      rfl
    have hempty : creditOf r.right = 0 := by
      rw [hright]
      rfl
    omega

end Config

end JsMinify
