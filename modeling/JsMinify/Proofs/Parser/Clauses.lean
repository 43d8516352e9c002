import JsMinify.Proofs.Node.LaidOut
import JsMinify.Proofs.Parser.Rewritten

/-!
# The clauses of a switch

A part of a derivation is one that stands in it (`Derivation.Within`), and the node that is built for a `switch`
statement of the source stands in the tree of the source (`Derivation.Within.handed`). Its clauses are kept in two
places, the `case` clauses in their order and the `default` clause apart, and both forms of a `switch` write the
`default` clause last. So the clauses are written in the order in which they stand in the source exactly if none of
them stands behind the `default` clause (`switch_order_kept_iff`).
-/

namespace JsMinify

open List

variable {c d : Grammar.Derivation} {r : Grammar.Rule} {a b out : String}

/-! ## Nodes in trees -/

def Kind.isSwitch : Kind → Bool
  | .switchStmt => true
  | _ => false

namespace Node

/-- A tree holds a node somewhere in it. -/
def Holds (tree n : Node) : Prop := ∃ path, tree.at? path = some n

def isSwitch : Node → Bool
  | .node k _ _ => k.isSwitch
  | _ => false

variable {n x : Node} {xs : List Node}

theorem Holds.refl (n : Node) : n.Holds n := ⟨[], by cases n <;> rfl⟩

theorem Holds.inner {tree : Node} (h : x.Holds n) (hx : x ∈ tree.inner) : tree.Holds n := by
  obtain ⟨path, hpath⟩ := h
  obtain ⟨i, hi⟩ := getElem?_of_mem hx
  exact ⟨i :: path, by rw [at?_cons, hi]; exact hpath⟩

theorem Holds.item (h : (Node.seq xs).Holds n) (hn : n.isSwitch) : ∃ x ∈ xs, x.Holds n := by
  obtain ⟨path, hpath⟩ := h
  cases path with
  | nil =>
    cases hpath
    cases hn
  | cons i path =>
    obtain ⟨x, hx, hholds⟩ := Option.bind_eq_some_iff.1 hpath
    exact ⟨x, mem_of_getElem? hx, path, hholds⟩

/-- What a node holds does not hang on its mark. -/
theorem Holds.modifyMark (h : x.Holds n) (hne : x ≠ n) (f : Mark → Mark) : (x.modifyMark f).Holds n := by
  obtain ⟨path, hpath⟩ := h
  cases path with
  | nil =>
    refine absurd (Option.some.inj ?_) hne
    rw [← hpath]
    cases x <;> rfl
  | cons i path => exact ⟨i :: path, by cases x <;> exact hpath⟩

end Node

namespace Grammar

/-! ## What the rules hand on -/

/-- Nothing below has statements in it. -/
def Nonterminal.isBare (A : Nonterminal) : Bool := [.empty, .identifier, .assignmentOperator, .parameters].contains A

/-- The value is a sequence, unless it is absent. -/
def Nonterminal.isList (A : Nonterminal) : Bool :=
  [.sourceElements, .sourceElementList, .functionBody, .caseBlock, .caseClausesOpt, .caseClauses, .elementList,
    .elisionOpt, .elision, .propertyList, .argumentList, .arguments, .varDeclList .plain, .varDeclList .noIn].contains A

/-- The value may be a `switch` statement. -/
def Nonterminal.isStatement (A : Nonterminal) : Bool := [.switchStatement, .statement, .sourceElement].contains A

/-- The slot gives what the value at a position holds. -/
def Slot.hands (list : Bool) (i : Nat) : Slot → Bool
  | .part j | .declInit _ j => i == j
  | .items j | .vars j => list && i == j
  | .list is => list && is.contains i
  | _ => false

/-- The rule hands on what the value at a position holds. -/
def Rule.hands (r : Rule) (i : Nat) (B : Nonterminal) : Bool :=
  match r.action with
  | .pass j => i == j && (!r.left.isList || B.isList) && (!B.isStatement || r.left.isStatement)
  | .seq slots => slots.any (·.hands B.isList i)
  | .make k _ slots =>
    !r.left.isList && (!k.isSwitch || r.left.isStatement) && slots.any (·.hands B.isList i)
  | .operator _ _ slots => !r.left.isList && slots.any (·.hands B.isList i)
  | .parens => !r.left.isList && i == 1 && !B.isStatement
  | _ => false

/-- The rule hands on all that may hold statements. -/
def Rule.handsOn (r : Rule) : Bool :=
  (List.range r.right.length).all fun i =>
    match r.right[i]? with
    | some (.n B) => B.isBare || (!r.left.isBare && r.hands i B)
    | _ => true

theorem rules_hand_on : ∀ r ∈ rules, r.handsOn := by decide +kernel

/-- The value of a nonterminal holds a node. -/
structure Hands (A : Nonterminal) (x n : Node) : Prop where
  holds : x.Holds n
  notBare : A.isBare = false
  listed : A.isList = true → ∃ xs, x = .seq xs
  statement : x.isSwitch = true → A.isStatement = true

variable {A B : Nonterminal} {x n : Node} {args : List Item} {i : Nat}

/-- A slot gives a node with what it hands on. -/
theorem Hands.fill (h : Hands B x n) (hn : n.isSwitch) (harg : nodeAt args i = x) {s : Slot}
    (hs : s.hands B.isList i) : ∃ y ∈ s.fill args, y.Holds n := by
  have hitems : B.isList → ∃ y ∈ x.items, y.Holds n := by
    intro hlist
    obtain ⟨xs, rfl⟩ := h.listed hlist
    exact h.holds.item hn
  cases s with
  | part j =>
    obtain rfl := beq_iff_eq.1 hs
    exact ⟨x, by simp [Slot.fill, harg], h.holds⟩
  | declInit k j =>
    obtain rfl := beq_iff_eq.1 hs
    exact ⟨_, mem_singleton_self _, h.holds.inner (by simp [Node.inner, harg])⟩
  | items j =>
    obtain ⟨hlist, hj⟩ := Bool.and_eq_true_iff.1 hs
    obtain rfl := beq_iff_eq.1 hj
    simpa [Slot.fill, harg] using hitems hlist
  | vars j =>
    obtain ⟨hlist, hj⟩ := Bool.and_eq_true_iff.1 hs
    obtain rfl := beq_iff_eq.1 hj
    obtain ⟨y, hy, hholds⟩ := hitems hlist
    exact ⟨_, mem_singleton_self _, hholds.inner (by simpa [Node.inner, harg] using hy)⟩
  | list is =>
    obtain ⟨hlist, hi⟩ := Bool.and_eq_true_iff.1 hs
    obtain ⟨y, hy, hholds⟩ := hitems hlist
    refine ⟨_, mem_singleton_self _, hholds.inner (mem_flatMap.2 ⟨i, contains_iff_mem.1 hi, ?_⟩)⟩
    rwa [harg]
  | nothing | name | names | leaf | decl => cases hs

/-- The value of a rule holds what the rule hands on. -/
theorem Hands.run (h : Hands B x n) (hn : n.isSwitch) (harg : (arg args i).value = .node x) (hr : r.hands i B)
    (hleft : r.left.isBare = false) : ∃ y, r.action.run args = .node y ∧ Hands r.left y n := by
  have hnode : nodeAt args i = x := by rw [nodeAt, harg]
  have hslots : ∀ slots : List Slot, slots.any (·.hands B.isList i) → ∃ y ∈ slots.flatMap (Slot.fill args), y.Holds n := by
    intro slots hany
    obtain ⟨s, hs, hhands⟩ := any_eq_true.1 hany
    obtain ⟨y, hy, hholds⟩ := h.fill hn hnode hhands
    exact ⟨y, mem_flatMap.2 ⟨s, hs, hy⟩, hholds⟩
  unfold Rule.hands at hr
  cases hact : r.action with
  | pass j =>
    simp only [hact, Bool.and_eq_true, Bool.or_eq_true, Bool.not_eq_true', beq_iff_eq] at hr
    obtain ⟨⟨rfl, hlist⟩, hstatement⟩ := hr
    refine ⟨x, harg, h.holds, hleft, fun hl => h.listed ?_, fun hx => ?_⟩
    · simpa [hl] using hlist
    · simpa [h.statement hx] using hstatement
  | seq slots =>
    simp only [hact] at hr
    obtain ⟨y, hy, hholds⟩ := hslots slots hr
    exact ⟨_, rfl, hholds.inner hy, hleft, fun _ => ⟨_, rfl⟩, fun hx => (by cases hx)⟩
  | make k j slots =>
    simp only [hact, Bool.and_eq_true, Bool.or_eq_true, Bool.not_eq_true'] at hr
    obtain ⟨⟨hlist, hswitch⟩, hany⟩ := hr
    obtain ⟨y, hy, hholds⟩ := hslots slots hany
    refine ⟨_, rfl, hholds.inner hy, hleft, fun hl => ?_, fun hx => hswitch.resolve_left ?_⟩
    · rw [hl] at hlist
      cases hlist
    · rw [show k.isSwitch = true from hx]
      exact Bool.noConfusion
  | operator form j slots =>
    simp only [hact, Bool.and_eq_true, Bool.not_eq_true'] at hr
    obtain ⟨hlist, hany⟩ := hr
    obtain ⟨y, hy, hholds⟩ := hslots slots hany
    refine ⟨_, rfl, hholds.inner hy, hleft, fun hl => ?_, fun hx => ?_⟩
    · rw [hl] at hlist
      cases hlist
    · cases form <;> cases hx
  | parens =>
    simp only [hact, Bool.and_eq_true, Bool.not_eq_true', beq_iff_eq] at hr
    obtain ⟨⟨hlist, rfl⟩, hexpr⟩ := hr
    have hx : x.isSwitch = false := by
      cases hx : x.isSwitch with
      | false => rfl
      | true => rw [h.statement hx] at hexpr; cases hexpr
    refine ⟨x.inParens, by rw [Action.run, hnode], h.holds.modifyMark ?_ _, hleft, fun hl => ?_, fun hp => ?_⟩
    · rintro rfl
      rw [hx] at hn
      cases hn
    · rw [hl] at hlist
      cases hlist
    · rw [show x.inParens.isSwitch = x.isSwitch by cases x <;> rfl, hx] at hp
      cases hp
  | absent | slot | nameExpr => simp only [hact] at hr; cases hr

namespace Derivation

/-- A derivation stands in another one. -/
inductive Within (s : Derivation) : Derivation → Prop where
  | here : Within s s
  | deeper {r : Rule} {line : Nat} {ds : List Derivation} {d : Derivation} (mem : d ∈ ds) (within : Within s d) :
      Within s (.rule r line ds)

theorem Within.valid {s : Derivation} (h : s.Within d) (hd : d.Valid) : s.Valid := by
  induction h with
  | here => exact hd
  | deeper mem _ ih =>
    cases hd with
    | rule _ _ valid => exact ih (valid _ mem)

set_option maxRecDepth 4000 in
theorem switch_rules : ∀ r ∈ rules, .t .kwSwitch ∈ r.right → r.left = .switchStatement := by decide

/-- A word `switch` begins a `switch` statement. -/
theorem Valid.exists_switch (h : d.Valid) (hd : d.symbol = .n .program) {t : Token} (ht : t ∈ d.tokens)
    (hk : t.kind = .kwSwitch) : ∃ s : Derivation, s.Within d ∧ s.symbol = .n .switchStatement := by
  have hfind : ∀ {d : Derivation}, d.Valid → t ∈ d.tokens →
      d = .token t ∨ ∃ s : Derivation, s.Within d ∧ s.symbol = .n .switchStatement := by
    intro d h ht
    induction h with
    | token u => exact .inl (by rw [mem_singleton.1 ht])
    | @rule r line below listed spells _ ih =>
      rw [tokens, tokensAll_eq] at ht
      obtain ⟨e, he, ht⟩ := mem_flatMap.1 ht
      rcases ih e he ht with rfl | ⟨s, hs, hsym⟩
      · have hright : .t .kwSwitch ∈ r.right := by
          rw [← spells, ← hk]
          exact mem_map_of_mem he
        exact .inr ⟨_, .here, congrArg Sym.n (switch_rules r listed hright)⟩
      · exact .inr ⟨s, .deeper he hs, hsym⟩
  refine (hfind h ht).resolve_left ?_
  rintro rfl
  cases hd

/-- The node of a `switch` statement stands in what is built from any derivation around it. -/
theorem Within.handed {s : Derivation} (h : s.Within d) (hd : d.Valid) (hs : s.symbol = .n .switchStatement) {n : Node}
    (hvalue : s.eval.value = .node n) (hn : n.isSwitch) :
    ∃ A x, d.symbol = .n A ∧ d.eval.value = .node x ∧ Hands A x n := by
  induction h with
  | here => exact ⟨_, n, hs, hvalue, .refl n, rfl, fun hl => (by cases hl), fun _ => rfl⟩
  | @deeper r line ds d mem within ih =>
    cases hd with
    | rule listed spells valid =>
      obtain ⟨B, x, hsym, hx, hhands⟩ := ih (valid d mem)
      obtain ⟨i, hi⟩ := getElem?_of_mem mem
      have hright : r.right[i]? = some (.n B) := by rw [← spells, getElem?_map, hi, ← hsym]; rfl
      have harg : (arg (evalAll ds) i).value = .node x := by
        rw [arg, evalAll_eq, getD_eq_getElem?_getD, getElem?_map, hi]
        exact hx
      have hcheck := all_eq_true.1 (rules_hand_on r listed) i (List.mem_range.2 (List.getElem?_eq_some_iff.1 hright).1)
      simp only [hright, hhands.notBare, Bool.false_or, Bool.and_eq_true, Bool.not_eq_true'] at hcheck
      obtain ⟨y, hy, hhands'⟩ := hhands.run hn harg hcheck.2 hcheck.1
      exact ⟨_, y, rfl, hy, hhands'⟩

/-! ## Clauses in the source -/

def node (d : Derivation) : Node := nodeAt [d.eval] 0

mutual
/-- The clauses of a `switch` statement, in the order in which they stand. -/
def clauses : Derivation → List Derivation
  | .token _ => []
  | .rule r line below =>
    if r.left = .caseClause ∨ r.left = .defaultClause then [.rule r line below]
    else if r.left ∈ [.switchStatement, .caseBlock, .caseClausesOpt, .caseClauses] then clausesAll below
    else []

def clausesAll : List Derivation → List Derivation
  | [] => []
  | d :: ds => clauses d ++ clausesAll ds
end

/-- No clause stands behind the `default` clause. -/
def DefaultLast (s : Derivation) : Prop := ∀ c ∈ s.clauses.dropLast, c.symbol = .n .caseClause

def IsCase (c : Derivation) : Prop := c.symbol = .n .caseClause ∧ ∃ m parts, c.node = .node .caseClause m parts

def IsDefault (c : Derivation) : Prop := c.symbol = .n .defaultClause ∧ ∃ m parts, c.node = .node .defaultClause m parts

theorem clauses_rule {line : Nat} {below : List Derivation}
    (h : r.left ∈ [.switchStatement, .caseBlock, .caseClausesOpt, .caseClauses]) :
    (Derivation.rule r line below).clauses = clausesAll below := by
  have hnot : ¬(r.left = .caseClause ∨ r.left = .defaultClause) := by
    rintro (he | he) <;> simp [he] at h
  rw [clauses, if_neg hnot, if_pos h]

theorem clauses_clause (h : d.symbol = .n .caseClause ∨ d.symbol = .n .defaultClause) : d.clauses = [d] := by
  cases d with
  | token t => rcases h with h | h <;> cases h
  | rule r line below =>
    rw [clauses, if_pos]
    exact h.imp Sym.n.inj Sym.n.inj

theorem clauses_expr {l : Level} {v : Variant} (h : d.symbol = .n (.expr l v)) : d.clauses = [] := by
  cases d with
  | token t => cases h
  | rule r line below =>
    have hleft : r.left = .expr l v := Sym.n.inj h
    rw [clauses, hleft, if_neg (by simp), if_neg (by simp)]

theorem clauses_token {k : TokenKind} (h : d.symbol = .t k) : d.clauses = [] := by
  cases d with
  | token t => rfl
  | rule r line below => cases h

theorem Valid.isCase (h : c.Valid) (hs : c.symbol = .n .caseClause) : c.IsCase := by
  obtain ⟨r, line, below, rfl, listed, hleft, -⟩ := h.exists_rule hs
  obtain rfl := (clause_part_rule listed).2 hleft
  exact ⟨hs, _, _, rfl⟩

attribute [local simp] Slot.fill nodeAt arg evalAll node eval Rule.item Action.run

/-- The nodes of a list of clauses are those of its clauses. -/
theorem Valid.items_clauses (h : d.Valid) (hs : d.symbol = .n .caseClausesOpt ∨ d.symbol = .n .caseClauses) :
    (∀ c ∈ d.clauses, c.IsCase) ∧ d.node.items = d.clauses.map node := by
  induction h with
  | token t => rcases hs with hs | hs <;> cases hs
  | @rule r line below listed spells valid ih =>
    have hmem := mem_of_filter_eq clause_rules listed (by simpa [symbol] using hs)
    have hleft : r.left ∈ [.switchStatement, .caseBlock, .caseClausesOpt, .caseClauses] := by
      rcases hs with hs | hs <;> simp [Sym.n.inj hs]
    rw [clauses_rule hleft]
    simp only [mem_cons, not_mem_nil, or_false] at hmem
    rcases hmem with rfl | rfl | rfl | rfl
    · obtain ⟨d, rfl, hd⟩ := map_eq_singleton_iff.1 spells
      have hvalue := ((valid d (by simp)).empty hd).2
      have hnone : d.clauses = [] := by
        cases d with
        | token t => rfl
        | rule r line below =>
          have hempty : r.left = .empty := Sym.n.inj hd
          rw [clauses, hempty, if_neg (by simp), if_neg (by simp)]
      refine ⟨by simp [clausesAll, hnone], ?_⟩
      simp [clausesAll, hnone, hvalue, Node.items]
    · obtain ⟨d, rfl, hd⟩ := map_eq_singleton_iff.1 spells
      obtain ⟨hcases, hitems⟩ := ih d (by simp) (.inr hd)
      rw [clausesAll, clausesAll, append_nil]
      exact ⟨hcases, hitems⟩
    · obtain ⟨d, rfl, hd⟩ := map_eq_singleton_iff.1 spells
      rw [clausesAll, clausesAll, clauses_clause (.inl hd)]
      refine ⟨by simpa using (valid d (by simp)).isCase hd, ?_⟩
      simp [Node.items]
    · simp only [map_eq_cons_iff, map_eq_nil_iff] at spells
      obtain ⟨d, _, rfl, hd, e, _, rfl, he, rfl⟩ := spells
      obtain ⟨hcases, hitems⟩ := ih d (by simp) (.inr hd)
      rw [clausesAll, clausesAll, clausesAll, clauses_clause (.inl he), append_nil]
      refine ⟨?_, ?_⟩
      · intro c hc
        rcases mem_append.1 hc with hc | hc
        · exact hcases c hc
        · obtain rfl := mem_singleton.1 hc
          exact (valid c (by simp)).isCase he
      · rw [map_append, ← hitems]
        simp [Node.items]

end Derivation

/-- The rules for a `switch`, its block and its `default` clause. -/
theorem switch_part_rule (h : r ∈ rules) :
    (r.left = .switchStatement → r = ⟨.switchStatement, [.t .kwSwitch, .t .lparen, expr, .t .rparen, .n .caseBlock],
      .make .switchStmt 2 [.part 2, .items 4]⟩) ∧
    (r.left = .caseBlock → r = ⟨.caseBlock, [.t .lbrace, .n .caseClausesOpt, .t .rbrace], .seq [.list [1], .nothing]⟩ ∨
      r = ⟨.caseBlock, [.t .lbrace, .n .caseClausesOpt, .n .defaultClause, .n .caseClausesOpt, .t .rbrace],
        .seq [.list [1, 3], .part 2]⟩) ∧
    (r.left = .defaultClause →
      r = ⟨.defaultClause, [.t .kwDefault, .t .colon, .n .sourceElements], .make .defaultClause 2 [.items 2]⟩) := by
  revert r
  decide +kernel

namespace Derivation

attribute [local simp] Slot.fill nodeAt arg evalAll node eval Rule.item Action.run

theorem Valid.isDefault (h : c.Valid) (hs : c.symbol = .n .defaultClause) : c.IsDefault := by
  obtain ⟨r, line, below, rfl, listed, hleft, -⟩ := h.exists_rule hs
  obtain rfl := (switch_part_rule listed).2.2 hleft
  exact ⟨hs, _, _, rfl⟩

/-- The clauses of a `switch` or of its block: those before the `default` clause, this one, if there is one, and those
behind it. -/
structure Divided (d : Derivation) (before : List Derivation) (last : Option Derivation) (after : List Derivation) :
    Prop where
  clauses : d.clauses = before ++ last.toList ++ after
  cases : ∀ c ∈ before ++ after, c.IsCase
  default : ∀ c ∈ last, c.IsDefault
  whole : last = none → after = []

theorem Valid.block (h : d.Valid) (hs : d.symbol = .n .caseBlock) : ∃ before last after, d.Divided before last after ∧
      d.node.items = [.seq ((before ++ after).map node), (last.map node).getD .absent] := by
  obtain ⟨r, line, below, rfl, listed, hleft, spells, valid⟩ := h.exists_rule hs
  have hclauses : (Derivation.rule r line below).clauses = clausesAll below := clauses_rule (by simp [hleft])
  rcases (switch_part_rule listed).2.1 hleft with rfl | rfl
  · simp only [map_eq_cons_iff, map_eq_nil_iff] at spells
    obtain ⟨b, _, rfl, hb, d, _, rfl, hd, b', _, rfl, hb', rfl⟩ := spells
    obtain ⟨hcases, hitems⟩ := (valid d (by simp)).items_clauses (.inl hd)
    refine ⟨d.clauses, none, [], ⟨?_, by simpa using hcases, by simp, fun _ => rfl⟩, ?_⟩
    · simp [hclauses, clausesAll, clauses_token hb, clauses_token hb']
    · rw [append_nil, ← hitems]
      simp [Node.items]
  · simp only [map_eq_cons_iff, map_eq_nil_iff] at spells
    obtain ⟨b, _, rfl, hb, d, _, rfl, hd, e, _, rfl, he, d', _, rfl, hd', b', _, rfl, hb', rfl⟩ := spells
    obtain ⟨hcases, hitems⟩ := (valid d (by simp)).items_clauses (.inl hd)
    obtain ⟨hcases', hitems'⟩ := (valid d' (by simp)).items_clauses (.inl hd')
    refine ⟨d.clauses, some e, d'.clauses, ⟨?_, ?_, ?_, fun hnone => by cases hnone⟩, ?_⟩
    · simp [hclauses, clausesAll, clauses_token hb, clauses_token hb', clauses_clause (.inr he)]
    · intro c hc
      exact (mem_append.1 hc).elim (hcases c) (hcases' c)
    · intro c hc
      cases hc
      exact (valid e (by simp)).isDefault he
    · rw [map_append, ← hitems, ← hitems']
      simp [Node.items]

/-- The node of a `switch` statement holds the `case` clauses in their order and the `default` clause apart. -/
theorem Valid.switch {s : Derivation} (h : s.Valid) (hs : s.symbol = .n .switchStatement) :
    ∃ before last after, s.Divided before last after ∧ ∃ m subject, s.eval.value = .node (.node .switchStmt m
        [subject, .seq ((before ++ after).map node), (last.map node).getD .absent]) := by
  obtain ⟨r, line, below, rfl, listed, hleft, spells, valid⟩ := h.exists_rule hs
  have hclauses : (Derivation.rule r line below).clauses = clausesAll below := clauses_rule (by simp [hleft])
  obtain rfl := (switch_part_rule listed).1 hleft
  simp only [map_eq_cons_iff, map_eq_nil_iff] at spells
  obtain ⟨t, _, rfl, ht, l, _, rfl, hl, e, _, rfl, he, r, _, rfl, hr, d, _, rfl, hd, rfl⟩ := spells
  obtain ⟨before, last, after, hdivided, hitems⟩ := (valid d (by simp)).block hd
  refine ⟨before, last, after, ⟨?_, hdivided.cases, hdivided.default, hdivided.whole⟩,
    markAt (evalAll [t, l, e, r, d]) 2, e.node, ?_⟩
  · rw [hclauses, ← hdivided.clauses]
    simp [clausesAll, clauses_token ht, clauses_token hl, clauses_token hr, clauses_expr he]
  · rw [← hitems]
    simp

end Derivation

end Grammar

/-! ## Clauses in the printed text -/

/-- What is printed for some clauses, one after another. -/
def Written (print : Node → Except TreeError String) (cs : List Node) (s : String) : Prop :=
  ∃ ts, List.Forall₂ (fun c t => print c = .ok t) cs ts ∧ s = String.join ts

namespace Written

variable {print : Node → Except TreeError String} {xs ys : List Node} {s t : String}

theorem append (hx : Written print xs s) (hy : Written print ys t) : Written print (xs ++ ys) (s ++ t) := by
  obtain ⟨ss, hss, rfl⟩ := hx
  obtain ⟨ts, hts, rfl⟩ := hy
  exact ⟨ss ++ ts, rel_append hss hts, String.join_append.symm⟩

theorem split (h : Written print (xs ++ ys) s) : ∃ a b, Written print xs a ∧ Written print ys b ∧ s = a ++ b := by
  obtain ⟨ts, hts, rfl⟩ := h
  refine ⟨_, _, ⟨ts.take xs.length, ?_, rfl⟩, ⟨ts.drop xs.length, ?_, rfl⟩, ?_⟩
  · simpa using forall₂_take xs.length hts
  · simpa using forall₂_drop xs.length hts
  · rw [← String.join_append, take_append_drop]

theorem unique (h : Written print xs s) (h' : Written print xs t) : s = t := by
  obtain ⟨ss, hss, rfl⟩ := h
  obtain ⟨ts, hts, rfl⟩ := h'
  induction hss generalizing ts with
  | nil => cases hts; rfl
  | cons hs _ ih =>
    cases hts with
    | cons ht hts =>
      cases hs.symm.trans ht
      rw [String.join_cons, String.join_cons, ih _ hts]

end Written

/-- The text of a clause tells its kind, behind some text that all clauses begin with. -/
structure TellsClauses (print : Node → Except TreeError String) (lead : String) : Prop where
  case : ∀ m parts, Gives (print (.node .caseClause m parts)) fun t => ∃ u, t = lead ++ ("case " ++ u)
  default : ∀ m parts, Gives (print (.node .defaultClause m parts)) fun t => ∃ u, t = lead ++ ("default:" ++ u)

open Grammar Grammar.Derivation

section

variable {print : Node → Except TreeError String} {lead : String} {s : Derivation} {before after : List Derivation}
  {last : Option Derivation}

/-- Clauses behind the `default` clause make another text before it. -/
theorem TellsClauses.ne (h : TellsClauses print lead) (hd : d.IsDefault) (hc : c.IsCase) {cs : List Derivation}
    (ha : Written print ((c :: cs).map node) a) (hb : Written print [d.node] b) : a ++ b ≠ b ++ a := by
  obtain ⟨as, has, rfl⟩ := ha
  obtain ⟨bs, hbs, rfl⟩ := hb
  obtain ⟨-, m, parts, hc⟩ := hc
  obtain ⟨-, m', parts', hd⟩ := hd
  cases has with
  | @cons _ t _ ts ht _ =>
    cases hbs with
    | @cons _ u _ us hu hus =>
      obtain ⟨v, rfl⟩ := h.case m parts t (hc ▸ ht)
      obtain ⟨w, rfl⟩ := h.default m' parts' u (hd ▸ hu)
      intro he
      have hlist := congrArg String.toList he
      simp [String.join_cons, append_assoc] at hlist

/-- Where the `default` clause is written last, the clauses are written in their order exactly if it stands last. -/
theorem TellsClauses.written_iff (h : TellsClauses print lead) (hs : s.Divided before last after)
    (hout : Written print ((before ++ after).map node ++ (last.map node).toList) out) :
    Written print (s.clauses.map node) out ↔ s.DefaultLast := by
  rw [DefaultLast, hs.clauses]
  cases last with
  | none =>
    obtain rfl := hs.whole rfl
    simp only [Option.toList_none, append_nil, Option.map_none] at hout ⊢
    refine ⟨fun _ c hc => (hs.cases c ?_).1, fun _ => hout⟩
    simpa using dropLast_subset _ hc
  | some d =>
    have hd := hs.default d rfl
    cases after with
    | nil =>
      simp only [Option.toList_some, append_nil, Option.map_some, map_append, map_cons, map_nil] at hout ⊢
      refine ⟨fun _ c hc => (hs.cases c ?_).1, fun _ => hout⟩
      simpa using hc
    | cons c cs =>
      constructor
      · intro hwritten
        obtain ⟨ab, d₁, hab, hd₁, rfl⟩ := hout.split
        rw [map_append] at hab
        obtain ⟨a, b, ha, hb, rfl⟩ := hab.split
        rw [map_append, map_append] at hwritten
        obtain ⟨ad, b', had, hb', he⟩ := hwritten.split
        obtain ⟨a', d', ha', hd', rfl⟩ := had.split
        rw [ha'.unique ha, hb'.unique hb, hd'.unique hd₁, String.append_assoc, String.append_assoc,
          String.append_right_inj] at he
        exact absurd he (h.ne hd (hs.cases c (by simp)) hb hd₁)
      · intro hlast
        have hcase := hlast d (by simp)
        rw [hd.1] at hcase
        cases hcase

end

theorem intercalate_empty (ts : List String) : "".intercalate ts = String.join ts := by
  induction ts with
  | nil => rfl
  | cons t ts ih =>
    cases ts with
    | nil => simp [String.join_cons]
    | cons u us => rw [String.intercalate_cons_cons, ih, String.append_empty, ← String.join_cons]

namespace Node

/-- The expression that a `switch` tests. -/
def subject? : Node → Option Node
  | .node .switchStmt _ (x :: _) => some x
  | _ => none

variable {m : Mark} {x z : Node} {xs : List Node}

theorem gives_compact (n : Node) : Gives (n.fold Compact.algebra) fun p => n.compact = .ok p.text :=
  fun _ => compact_of_fold

/-- The compact form of a `switch`. -/
theorem gives_compact_switch :
    Gives ((node .switchStmt m [x, .seq xs, z]).fold Compact.algebra) fun p => ∃ v s, x.compact = .ok v ∧
      Written compact (xs ++ if z.isAbsent then [] else [z]) s ∧ p.text = "switch(" ++ v ++ ")\x7b" ++ s ++ "\x7d" := by
  rw [fold_node]
  change Gives (do
    let value ← x.fold Compact.algebra
    let clauses ← (do return .join "" (← (xs.map fun c => (c, c.fold Compact.algebra)).mapM fun c => do
      expectCase c.1
      c.2) : Compact.Out)
    if z.isAbsent then return "switch" ++ value.inParens ++ clauses.braced
    expectDefault z
    return "switch" ++ value.inParens ++ (clauses ++ (← z.fold Compact.algebra)).braced) _
  refine .bind (gives_compact x) fun v hv => ?_
  rw [mapM_map]
  refine .bind (P := fun p : Printed => Written compact xs p.text) ?_ fun p hp => ?_
  · refine .bind (.mapM (S := fun c p => c.compact = .ok p.text) fun c _ => ?_) fun ps hps => .pure ?_
    · exact .step fun _ _ => gives_compact c
    · exact ⟨ps.map Printed.text, forall₂_map_right_iff.2 hps, intercalate_empty _⟩
  · split
    · refine .pure ⟨v.text, p.text, hv, by simpa using hp, ?_⟩
      change "switch" ++ ("(" ++ v.text ++ ")") ++ ("\x7b" ++ p.text ++ "\x7d") = _
      simp [← String.toList_inj]
    · refine .step fun _ _ => ?_
      refine .bind (gives_compact z) fun u hu => .pure ⟨v.text, p.text ++ u.text, hv, ?_, ?_⟩
      · exact hp.append ⟨[u.text], .cons hu .nil, by simp [String.join_cons]⟩
      · change "switch" ++ ("(" ++ v.text ++ ")") ++ ("\x7b" ++ (p.text ++ u.text) ++ "\x7d") = _
        simp [← String.toList_inj]

theorem compact_tells : TellsClauses compact "" where
  case m parts := by
    refine .bind (P := fun p => ∃ u, p.text = "case " ++ u) ?_ fun p hp => ?_
    · rw [fold_node]
      refine .step fun v _ =>
        .step fun w _ => .pure ⟨v.text ++ ":" ++ w.text, ?_⟩
      change "case " ++ v.text ++ ":" ++ w.text = _
      simp [String.append_assoc]
    · obtain ⟨u, hu⟩ := hp
      exact .pure ⟨u, by rw [hu, String.empty_append]⟩
  default m parts := by
    refine .bind (P := fun p => ∃ u, p.text = "default:" ++ u) ?_ fun p hp => ?_
    · rw [fold_node]
      exact .step fun v _ => .pure ⟨v.text, rfl⟩
    · obtain ⟨u, hu⟩ := hp
      exact .pure ⟨u, by rw [hu, String.empty_append]⟩

/-- What a clause of a laid out `switch` is written behind: the `default` clause brings its own indentation. -/
def clauseLead (i : Nat) : Node → String
  | .node .defaultClause _ _ => ""
  | _ => Pretty.indent i

/-- A clause as it is laid out in a `switch`. -/
def clauseLayout (style : Pretty.Style) (i : Nat) (c : Node) : Except TreeError String :=
  (c.clauseLead i ++ ·) <$> c.fold (Pretty.algebra style) i

variable (style : Pretty.Style) (i : Nat)

/-- The laid out form of a `switch`. -/
theorem gives_layout_switch (hxs : ∀ c ∈ xs, ∃ m parts, c = node .caseClause m parts)
    (hz : z.isAbsent ∨ ∃ m parts, z = node .defaultClause m parts) :
    Gives ((node .switchStmt m [x, .seq xs, z]).fold (Pretty.algebra style) i) fun out => ∃ v s,
      x.fold (Pretty.algebra style) i = .ok v ∧
      Written (clauseLayout style (i + 2)) (xs ++ if z.isAbsent then [] else [z]) s ∧
      out = "switch (" ++ v ++ ") \x7b\n" ++ s ++ Pretty.indent i ++ "\x7d" := by
  rw [fold_node]
  change Gives (do
    let head := "switch (" ++ (← x.fold (Pretty.algebra style) i) ++ ") \x7b\n"
    let clauses ← (do return String.join (← (xs.map fun c => (c, c.fold (Pretty.algebra style))).mapM fun c => do
      expectCase c.1
      return Pretty.indent (i + 2) ++ (← c.2 (i + 2))) : Except TreeError String)
    let last ← if z.isAbsent then pure "" else do
      expectDefault z
      z.fold (Pretty.algebra style) (i + 2)
    return head ++ clauses ++ last ++ Pretty.indent i ++ "\x7d") _
  refine .step fun v hv => ?_
  rw [mapM_map]
  refine .bind (P := Written (clauseLayout style (i + 2)) xs) ?_ fun s hs => ?_
  · refine .bind (.mapM (S := fun c t => clauseLayout style (i + 2) c = .ok t) fun c hc => ?_) fun ts hts =>
      .pure ⟨ts, hts, rfl⟩
    refine .step fun _ _ => ?_
    obtain ⟨m, parts, rfl⟩ := hxs c hc
    exact .step fun t ht => .pure (congrArg (_ <$> ·) ht)
  · rcases hz with habsent | ⟨m, parts, rfl⟩
    · simp only [habsent, if_true]
      refine .pure ⟨v, s, hv, by simpa using hs, ?_⟩
      simp
    · refine .step fun _ _ => .step fun u hu => ?_
      refine .pure ⟨v, s ++ u, hv, hs.append ⟨[u], .cons ?_ .nil, by simp [String.join_cons]⟩, ?_⟩
      · rw [clauseLayout, hu]
        exact congrArg Except.ok String.empty_append
      · simp [String.append_assoc]

theorem layout_tells : TellsClauses (clauseLayout style i) (Pretty.indent i) where
  case m parts := by
    refine .map (P := fun t => ∃ u, t = "case " ++ u) ?_ fun t ht => ?_
    · rw [fold_node]
      refine .step fun v _ =>
        .step fun w _ =>
          .pure ⟨v ++ ":\n" ++ (if w.isEmpty then "" else w ++ "\n"), ?_⟩
      simp only [String.append_assoc]
    · obtain ⟨u, rfl⟩ := ht
      exact ⟨u, rfl⟩
  default m parts := by
    refine .map (P := fun t => ∃ u, t = Pretty.indent i ++ ("default:" ++ u)) ?_ fun t ht => ?_
    · rw [fold_node]
      refine .step fun v _ => .pure ⟨"\n" ++ v ++ "\n", ?_⟩
      simp [← String.toList_inj]
    · obtain ⟨u, rfl⟩ := ht
      exact ⟨u, String.empty_append⟩

end Node

/-- A text is the compact form of a `switch` with clauses in the given order. -/
def Compact.Lists (n : Node) (cs : List Node) (out : String) : Prop :=
  ∃ x v s, n.subject? = some x ∧ x.compact = .ok v ∧ Written Node.compact cs s ∧ out = "switch(" ++ v ++ ")\x7b" ++ s ++ "\x7d"

/-- A text is the laid out form of a `switch` with clauses in the given order. -/
def Pretty.Lists (style : Style) (i : Nat) (n : Node) (cs : List Node) (out : String) : Prop :=
  ∃ x v s, n.subject? = some x ∧ x.fold (algebra style) i = .ok v ∧ Written (Node.clauseLayout style (i + 2)) cs s ∧
    out = "switch (" ++ v ++ ") \x7b\n" ++ s ++ indent i ++ "\x7d"

theorem append_middle_inj {b' c : String} : a ++ b ++ c = a ++ b' ++ c ↔ b = b' := by
  rw [String.append_assoc, String.append_assoc, String.append_right_inj, String.append_left_inj]

namespace Grammar.Derivation.Divided

variable {s : Derivation} {before after : List Derivation} {last : Option Derivation}

theorem default_items (h : s.Divided before last after) :
    (if ((last.map node).getD .absent).isAbsent then [] else [(last.map node).getD .absent]) = (last.map node).toList := by
  cases last with
  | none => rfl
  | some d =>
    obtain ⟨-, m, parts, hd⟩ := h.default d rfl
    simp [hd, Node.isAbsent]

theorem case_nodes (h : s.Divided before last after) :
    ∀ c ∈ (before ++ after).map node, ∃ m parts, c = .node .caseClause m parts := by
  intro c hc
  obtain ⟨d, hd, rfl⟩ := mem_map.1 hc
  exact (h.cases d hd).2

theorem default_node (h : s.Divided before last after) :
    ((last.map node).getD .absent).isAbsent ∨ ∃ m parts, (last.map node).getD .absent = .node .defaultClause m parts := by
  cases last with
  | none => exact .inl rfl
  | some d => exact .inr (h.default d rfl).2

end Grammar.Derivation.Divided

/-- In a text that is parsed, the clauses of a `switch` statement are printed in the order in which they stand,
in both forms, exactly if none of them stands behind the `default` clause. -/
theorem switch_order_kept_iff {text : String} {tree : Node} {p : Parser} (h : parse text = (.ok tree, p)) :
    ∃ d : Derivation, d.Valid ∧ d.symbol = .n .program ∧ d.tokens = (shiftedIn text).map (·.token) ∧ d.eval.value = .node tree ∧
      ∀ s : Derivation, s.Within d → s.symbol = .n .switchStatement → ∃ n, s.eval.value = .node n ∧ tree.Holds n ∧
        (∀ out, n.compact = .ok out → (Compact.Lists n (s.clauses.map node) out ↔ s.DefaultLast)) ∧
        ∀ style i out, n.fold (Pretty.algebra style) i = .ok out →
          (Pretty.Lists style i n (s.clauses.map node) out ↔ s.DefaultLast) := by
  obtain ⟨d, valid, symbol, tokens, value⟩ := ((start_traced text).record _).accepted (record_accepted h)
  refine ⟨d, valid, symbol, tokens, value, fun s hs hsym => ?_⟩
  obtain ⟨before, last, after, hdivided, m, subject, hvalue⟩ := (hs.valid valid).switch hsym
  refine ⟨_, hvalue, ?_, fun out hout => ?_, fun style i out hout => ?_⟩
  · obtain ⟨A, x, -, hx, hhands⟩ := hs.handed valid hsym hvalue rfl
    cases value.symm.trans hx
    exact hhands.holds
  · obtain ⟨q, hq, rfl⟩ := Node.fold_of_compact hout
    obtain ⟨v, t, hv, ht, hq⟩ := Node.gives_compact_switch q hq
    rw [hdivided.default_items] at ht
    rw [← Node.compact_tells.written_iff hdivided ht, hq]
    constructor
    · rintro ⟨x, w, u, hx, hw, hu, he⟩
      cases hx
      cases hv.symm.trans hw
      rwa [append_middle_inj.1 he]
    · intro hwritten
      exact ⟨subject, v, t, rfl, hv, hwritten, rfl⟩
  · obtain ⟨v, t, hv, ht, rfl⟩ := Node.gives_layout_switch style i hdivided.case_nodes hdivided.default_node out hout
    rw [hdivided.default_items] at ht
    rw [← (Node.layout_tells style (i + 2)).written_iff hdivided ht]
    constructor
    · rintro ⟨x, w, u, hx, hw, hu, he⟩
      cases hx
      cases hv.symm.trans hw
      rw [String.append_left_inj, append_middle_inj] at he
      rwa [he]
    · intro hwritten
      exact ⟨subject, v, t, rfl, hv, hwritten, rfl⟩

/-- The `default` clause is moved behind the clause that follows it, so another one falls through. -/
theorem default_clause_moves : ∃ tree p, parse "switch(a)\x7bdefault:b;case 1:c;\x7d" = (.ok tree, p) ∧
      tree.compact = .ok "switch(a)\x7bcase 1:c;default:b;\x7d" ∧
      ∃ d s : Derivation, d.Valid ∧ d.eval.value = .node tree ∧ s.Within d ∧ s.symbol = .n .switchStatement ∧
        ∃ n, s.eval.value = .node n ∧ tree.Holds n ∧
          ∀ out, n.compact = .ok out → (Compact.Lists n (s.clauses.map node) out ↔ s.DefaultLast) := by
  have hword : (shiftedIn "switch(a)\x7bdefault:b;case 1:c;\x7d").any (·.token.kind == .kwSwitch) = true := by
    decide +kernel
  obtain ⟨tree, p, hparse, hcode⟩ := exists_of_test "switch(a)\x7bdefault:b;case 1:c;\x7d"
    (fun tree => tree.compact.toOption == some "switch(a)\x7bcase 1:c;default:b;\x7d") (by decide +kernel)
  obtain ⟨d, valid, symbol, tokens, value, hkept⟩ := switch_order_kept_iff hparse
  obtain ⟨t, ht, hk⟩ := List.any_eq_true.1 hword
  obtain ⟨s, hs, hsym⟩ := valid.exists_switch symbol (t := t.token) (by rw [tokens]; exact List.mem_map_of_mem ht)
    (beq_iff_eq.1 hk)
  obtain ⟨n, hn, hholds, hcompact, -⟩ := hkept s hs hsym
  exact ⟨tree, p, hparse, ok_of_toOption (beq_iff_eq.1 hcode), d, s, valid, value, hs, hsym, n, hn, hholds, hcompact⟩

end JsMinify
