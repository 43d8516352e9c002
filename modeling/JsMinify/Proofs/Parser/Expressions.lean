import JsMinify.Proofs.Parser.Rebuild

/-!
# Expressions at the level of their words

An expression that has lost its parentheses may belong to another level than before: `(f()).x` is a member, and
`f().x` is a call. Here the rules for primary expressions, members and calls are built again at the level that
their words belong to.
-/

namespace JsMinify

open List

namespace Grammar

open JsMinify.Grammar.Derivation

variable {x n : Node} {d e : Derivation} {t : Level} {A : Nonterminal} {r : Rule} {s : Sym} {ws : List Word} {k : Kind}
  {below : List Derivation} {P : Derivation → Prop}

/-! ## Nonterminals for expressions of one kind -/

/-- How tight the expressions are that a symbol stands for, where all are the same. -/
def Sym.yields : Sym → Option (Option Level)
  | .n .literal | .n .nullLiteral | .n .booleanLiteral | .n .numericLiteral | .n .stringLiteral | .n .regexLiteral
  | .n .arrayLiteral | .n .objectLiteral => some (some .primary)
  | .n .functionExpr => some (some .member)
  | .n .unaryCommon => some none
  | _ => none

/-- The action builds expressions that are all as tight. -/
def Action.yields (right : List Sym) (t : Option Level) : Action → Bool
  | .pass i => right[i]?.any fun s => s.yields == some t
  | .slot (.leaf _ _) => t == some .primary
  | .make k _ _ => k.tight false none == t && k.tight false (some .call) == t
  | .operator _ _ _ => t == none
  | _ => false

theorem rules_yield : ∀ r ∈ rules, ∀ t ∈ (Sym.n r.left).yields, r.action.yields r.right t := by decide +kernel

section

variable {shows : Kind → Bool}

theorem Kind.tight_eq {t : Option Level} (h : k.tight false none = t) (h' : k.tight false (some .call) = t)
    (first : Option Level) : k.tight false first = t := by
  cases k with
  | dot | bracket =>
    rw [← h] at h'
    cases h'
  | _ => exact h

/-- How tight the node is that an action builds, if this is known of what it passes on. -/
theorem Action.tight_run (spells : below.map symbol = r.right)
    (hbelow : ∀ d ∈ below, ∀ t n, d.symbol.yields = some t → d.eval.value = .node n → n.tight shows = t) {t : Option Level}
    (ht : r.action.yields r.right t) (hn : r.action.run (evalAll below) = .node n) :
    n.tight shows = t := by
  generalize r.action = a at ht hn
  cases a with
  | pass i =>
    obtain ⟨s, hs, hyields⟩ := (Option.any_eq_true _ _).1 ht
    obtain ⟨d, hd, hsymbol, harg⟩ := below_at spells hs
    apply hbelow d hd t n
    · rw [hsymbol]
      exact beq_iff_eq.1 hyields
    · rw [← harg]
      exact hn
  | slot s =>
    cases s with
    | leaf form i =>
      cases hn
      obtain rfl := beq_iff_eq.1 ht
      simp only [Slot.fill, headD_cons, Node.tight_node, markAt, Bool.false_and]
      cases form <;> rfl
    | _ => cases ht
  | make k line slots =>
    cases hn
    rw [Action.yields, Bool.and_eq_true, beq_iff_eq, beq_iff_eq] at ht
    rw [Node.tight_node]
    exact Kind.tight_eq ht.1 ht.2 _
  | operator form op slots =>
    cases hn
    obtain rfl := beq_iff_eq.1 ht
    rw [Node.tight_node]
    cases form <;> rfl
  | _ => cases ht

theorem Derivation.Valid.tight_eq (shows : Kind → Bool) (h : d.Valid) {t : Option Level} (ht : d.symbol.yields = some t)
    (hn : d.eval.value = .node n) : n.tight shows = t := by
  induction h generalizing t n with
  | token u => cases ht
  | @rule r line below listed spells _ ih =>
    exact Action.tight_run spells (fun d hd t n ht hn => ih d hd ht hn) (rules_yield r listed t ht) hn

end

/-! ## The rules for tight expressions -/

/-- The symbols for expressions of one kind that tight expressions are made of, and the levels of these. -/
def atoms : List (Nonterminal × Level) :=
  [(.objectLiteral, .primary), (.literal, .primary), (.arrayLiteral, .primary), (.functionExpr, .member)]

/-- The rules that build tight expressions. -/
inductive TightRule : Rule → Prop where
  | atom (l : Level) (v : Variant) {A : Nonterminal} {t : Level} (mem : (A, t) ∈ atoms) :
      TightRule ⟨.expr l v, [.n A], .pass 0⟩
  | name : TightRule ⟨.expr .primary .noBrace, [.n .identifier], .nameExpr⟩
  | this : TightRule ⟨.expr .primary .noBrace, [.t .kwThis], .make .this 0 []⟩
  | parens : TightRule ⟨.expr .primary .noBrace, [.t .lparen, expr, .t .rparen], .parens⟩
  | dot (l : Level) (v : Variant) (tight : l.isTight = true) :
      TightRule ⟨.expr l v, [.n (.expr l v), .t .period, .n .identifier], .make .dot 0 [.part 0, .part 2]⟩
  | bracket (l : Level) (v : Variant) (tight : l.isTight = true) :
      TightRule ⟨.expr l v, [.n (.expr l v), .t .lbracket, expr, .t .rbracket], .make .bracket 0 [.part 0, .part 2]⟩
  | call (l : Level) (v : Variant) (tight : l.isTight = true) :
      TightRule ⟨.expr .call v, [.n (.expr l v), .n .arguments], .make .call 0 [.part 0, .items 1]⟩
  | create (v : Variant) :
      TightRule ⟨.expr .member v, [.t .kwNew, .n (.expr .member .plain), .n .arguments], .make .newExpr 1 [.part 1, .list [2]]⟩
  | createBare (v : Variant) :
      TightRule ⟨.expr .creation v, [.t .kwNew, .n (.expr .creation .plain)], .make .newExpr 1 [.part 1, .list []]⟩

theorem TightRule.not_mem_right (h : TightRule r) : .n .assignmentOperator ∉ r.right := by
  cases h with
  | atom l v mem =>
    intro hmem
    cases mem_singleton.1 hmem
    simp [atoms] at mem
  | _ => simp [expr]

def Nonterminal.isTight : Nonterminal → Bool
  | .expr l _ => l.isTight
  | _ => false

theorem tight_rules :
    rules.filter (fun r => r.left.isTight && !r.isStep) = [⟨.expr .primary .plain, [.n .objectLiteral], .pass 0⟩,
        ⟨.expr .primary .noBrace, [.n .identifier], .nameExpr⟩,
        ⟨.expr .primary .noBrace, [.t .kwThis], .make .this 0 []⟩,
        ⟨.expr .primary .noBrace, [.n .literal], .pass 0⟩,
        ⟨.expr .primary .noBrace, [.n .arrayLiteral], .pass 0⟩,
        ⟨.expr .primary .noBrace, [.t .lparen, expr, .t .rparen], .parens⟩] ++
      ([Variant.plain, .noBrace].flatMap fun v => (memberRules v).tail) ++
      ([Variant.plain, .noBrace].flatMap fun v => (creationRules v).tail) ++
      ([Variant.plain, .noBrace].flatMap callRules) := by
  decide

theorem mem_of_filter_eq {p : Rule → Bool} {rs : List Rule} (hrs : rules.filter p = rs) (hr : r ∈ rules) (h : p r) :
    r ∈ rs := by
  rw [← hrs]
  exact mem_filter.2 ⟨hr, h⟩

theorem tightRule_of_mem (hr : r ∈ rules) (hleft : r.left.isTight) (hstep : r.isStep = false) : TightRule r := by
  have hmem := mem_of_filter_eq tight_rules hr (by rw [hleft, hstep]; rfl)
  simp only [memberRules, accessRules, creationRules, callRules, passes, map_cons, map_nil, flatMap_cons,
    flatMap_nil, cons_append, nil_append, append_nil, tail_cons, mem_cons,
    not_mem_nil, or_false] at hmem
  rcases hmem with rfl | rfl | rfl | rfl | rfl | rfl | rfl | rfl | rfl | rfl | rfl | rfl | rfl | rfl | rfl | rfl | rfl |
    rfl | rfl | rfl | rfl | rfl | rfl | rfl
  all_goals first
    | exact .atom (t := .primary) _ _ (by decide)
    | exact .atom (t := .member) _ _ (by decide)
    | exact .name
    | exact .this
    | exact .parens
    | exact .dot _ _ rfl
    | exact .bracket _ _ rfl
    | exact .call _ _ rfl
    | exact .create _
    | exact .createBare _

/-! ## Expressions -/

theorem Derivation.Orderly.expression (h : d.Orderly) {l : Level} {v : Variant}
    (hs : d.symbol = .n (.expr l v)) : ∃ n, d.eval.value = .node n ∧ Formed (.one .expression) n := by
  have hsuits := h.suits
  rw [hs] at hsuits
  exact hsuits

/-- Nonterminals other than the assignment operators stand for nodes. -/
theorem Derivation.Orderly.exists_node (h : d.Orderly) (hs : d.symbol = .n A) (hA : A ≠ .assignmentOperator) :
    ∃ n, d.eval.value = .node n := by
  have hsuits := h.suits
  rw [hs] at hsuits
  by_cases hcase : A = .caseBlock
  · subst hcase
    obtain ⟨clauses, last, hv, -⟩ := hsuits
    exact ⟨_, hv⟩
  · obtain ⟨n, hv, -⟩ := (suits_node hA hcase).1 hsuits
    exact ⟨n, hv⟩

/-- A derivation of a nonterminal that gives a node, and has a property. -/
structure Derivation.Gives (P : Derivation → Prop) (d : Derivation) (A : Nonterminal) (x : Node) : Prop where
  symbol : d.symbol = .n A
  orderly : d.Orderly
  value : d.eval.value = .node x
  holds : P d

/-- The derivations below a rule, with what those of nonterminals give. -/
def Below (P : Derivation → Prop) : List Sym → List Derivation → Prop
  | [], ds => ds = []
  | .t k :: ss, ds => ∃ d ds', ds = d :: ds' ∧ d.symbol = .t k ∧ Below P ss ds'
  | .n A :: ss, ds => ∃ d ds' x, ds = d :: ds' ∧ d.Gives P A x ∧ Below P ss ds'

theorem below_of_spells {ss : List Sym} (hss : .n .assignmentOperator ∉ ss)
    (spells : below.map symbol = ss) (orderly : ∀ d ∈ below, d.Orderly) (holds : ∀ d ∈ below, P d) : Below P ss below := by
  subst spells
  induction below with
  | nil => rfl
  | cons d ds ih =>
    obtain ⟨horderly, orderly⟩ := forall_mem_cons.1 orderly
    obtain ⟨hd, holds⟩ := forall_mem_cons.1 holds
    rw [map_cons, mem_cons, not_or] at hss
    have hrest := ih orderly holds hss.2
    rw [map_cons]
    cases hs : d.symbol with
    | t k => exact ⟨d, ds, rfl, hs, hrest⟩
    | n A =>
      obtain ⟨x, hx⟩ := horderly.exists_node hs (by rintro rfl; exact hss.1 hs.symm)
      exact ⟨d, ds, x, rfl, ⟨hs, horderly, hx, hd⟩, hrest⟩

theorem Derivation.Gives.formed {l : Level} {v : Variant} (h : d.Gives P (.expr l v) x) : Formed (.one .expression) x := by
  obtain ⟨n, hn, hformed⟩ := h.orderly.expression h.symbol
  cases h.value.symm.trans hn
  exact hformed

section

variable {shows : Kind → Bool}

/-- The levels that expressions without parentheses may belong to. -/
theorem tight_cases (h : n.tight shows = some t) : t = .primary ∨ t = .member ∨ t = .call ∨ t = .comma := by
  cases n with
  | absent => cases h
  | seq ns => cases h
  | node k m parts =>
    rw [Node.tight_node] at h
    split at h
    · exact .inl (Option.some.inj h).symm
    · cases k with
      | comma =>
        simp only [Kind.tight] at h
        split at h
        · exact .inr (.inr (.inr (Option.some.inj h).symm))
        · cases h
      | assign | binary | unary | conditional => cases h
      | call => exact .inr (.inr (.inl (Option.some.inj h).symm))
      | dot | bracket =>
        simp only [Kind.tight] at h
        split at h
        · exact .inr (.inr (.inl (Option.some.inj h).symm))
        · exact .inr (.inl (Option.some.inj h).symm)
      | newExpr | function => exact .inr (.inl (Option.some.inj h).symm)
      | _ => exact .inl (Option.some.inj h).symm

/-- The level of what an expression is put before: a call, or a member. -/
def baseLevel (t : Option Level) : Level := if t = some .call then .call else .member

/-- The expression belongs to a level, and is derived there. -/
def Settled (shows : Kind → Bool) (n : Node) : Prop :=
  ∃ t, n.tight shows = some t ∧ (n.every (Node.isRestorable shows) = true →
    (Demand.closed (.n (.expr t .plain)) (n.words shows) (.node n)).Met shows)

/-- A tight expression that is no comma is a call or can be taken for a member. -/
theorem Derivation.Gives.base {l : Level} {v : Variant} (h : d.Gives (Rebuilds shows) (.expr l v) n) (hl : l.isTight)
    (hevery : n.every (Node.isRestorable shows)) (hbare : n.isBare shows = false) :
    (Demand.closed (.n (.expr (baseLevel (n.tight shows)) .plain)) (n.words shows) (.node n)).Met shows := by
  obtain ⟨t, ht⟩ := Option.ne_none_iff_exists'.1 (h.holds.known l v n h.symbol h.value (by rw [hl]; rfl))
  have hmet := h.holds.tight l v n h.symbol h.value hevery t ht
  rw [ht]
  rcases tight_cases ht with rfl | rfl | rfl | rfl
  · exact hmet.settle (l := .member) (n := 1) rfl rfl .plain nofun
  · exact hmet
  · exact hmet
  · rw [(Node.tight_eq_comma_iff n).1 ht] at hbare
    cases hbare

theorem Demand.Met.words_congr {ws' : List Word} {x : Value} (h : (closed s ws x).Met shows) (hws : ws = ws') :
    (closed s ws' x).Met shows := hws ▸ h

theorem Demand.Met.to_plain {x : Value} (h : (closed (.n (.expr .primary .noBrace)) ws x).Met shows) :
    (closed (.n (.expr .primary .plain)) ws x).Met shows :=
  Met.pass (by decide) rfl h

/-- Expressions of one kind are derived at their level. -/
theorem Demand.Met.of_atom (hA : (A, t) ∈ atoms) {x : Value} (h : (closed (.n A) ws x).Met shows) :
    (closed (.n (.expr t .plain)) ws x).Met shows := by
  simp only [atoms, mem_cons, Prod.mk.injEq, not_mem_nil, or_false] at hA
  rcases hA with ⟨rfl, rfl⟩ | ⟨rfl, rfl⟩ | ⟨rfl, rfl⟩ | ⟨rfl, rfl⟩
  · exact Met.pass (by decide) rfl h
  · exact Met.to_plain (Met.pass (by decide) rfl h)
  · exact Met.to_plain (Met.pass (by decide) rfl h)
  · exact Met.pass (by decide) rfl h

theorem Derivation.closed_of_met (h : (d.demand shows).Met shows) (hs : d.symbol = s)
    (hopen : s.isOpen = false) (hn : d.eval.value = .node n) :
    (Demand.closed s (d.wording shows) (.node n)).Met shows := by
  have hclosed := h.close (by rw [demand, hs]; exact hopen)
  rw [demand, hs, hn] at hclosed
  exact hclosed

theorem Derivation.nodeAt_eval (hn : d.eval.value = .node n) : nodeAt [d.eval] 0 = n := by
  rw [nodeAt, arg, getD_cons_zero, hn]

theorem Derivation.wording_node (hs : d.symbol.signs 0 = [.node 0])
    (hn : d.eval.value = .node n) : d.wording shows = n.words shows := by
  rw [wording, hs, wordsOf_cons, wordsOf_nil, append_nil, Sign.words, nodeAt_eval hn]

theorem Derivation.Gives.words (h : d.Gives P A x) (hA : A.signs 0 = [.node 0]) : d.wording shows = x.words shows :=
  wording_node (by rw [h.symbol]; exact hA) h.value

/-- What is read back at the symbol of a derivation is derived there. -/
theorem Derivation.Gives.wording (h : d.Gives (Rebuilds shows) A x) (hown : (Sym.n A).isOwn)
    (hopen : A.isOpen = false) (hfine : Fine shows (.n A) x) :
    (Demand.closed (.n A) (d.wording shows) (.node x)).Met shows := by
  apply closed_of_met _ h.symbol hopen h.value
  refine h.holds.own (by rw [h.symbol]; exact hown) fun n hn => ?_
  cases h.value.symm.trans hn
  rw [h.symbol]
  exact hfine

theorem Derivation.Gives.closed (h : d.Gives (Rebuilds shows) A x) (hown : (Sym.n A).isOwn)
    (hopen : A.isOpen = false) (hA : A.signs 0 = [.node 0]) (hfine : Fine shows (.n A) x) :
    (Demand.closed (.n A) (x.words shows) (.node x)).Met shows := by
  rw [← h.words hA]
  exact h.wording hown hopen hfine

theorem atoms_own (hA : (A, t) ∈ atoms) :
    (Sym.n A).yields = some (some t) ∧ (Sym.n A).isOwn ∧ A.isOpen = false ∧ (Sym.n A).isLeading = false ∧
      A.signs 0 = [.node 0] ∧ t ≠ .comma := by
  simp only [atoms, mem_cons, Prod.mk.injEq, not_mem_nil, or_false] at hA
  rcases hA with ⟨rfl, rfl⟩ | ⟨rfl, rfl⟩ | ⟨rfl, rfl⟩ | ⟨rfl, rfl⟩ <;> exact ⟨rfl, rfl, rfl, rfl, rfl, nofun⟩

theorem settled_atom (hd : d.Gives (Rebuilds shows) A n) (hA : (A, t) ∈ atoms) : Settled shows n := by
  obtain ⟨hyields, hown, hopen, hleading, hsigns, hcomma⟩ := atoms_own hA
  have htight := hd.orderly.valid.tight_eq shows (by rw [hd.symbol]; exact hyields) hd.value
  refine ⟨t, htight, fun hevery => (hd.closed hown hopen hsigns ⟨hevery, fun hb => ?_, fun hl => ?_⟩).of_atom hA⟩
  · rw [(Node.tight_eq_comma_iff n).2 hb] at htight
    exact absurd (Option.some.inj htight).symm hcomma
  · rw [hleading] at hl
    cases hl

/-- A token with the word of a kind. -/
theorem exists_word (shows : Kind → Bool) (k : TokenKind) : ∃ t : Token, (Demand.closed (.t k) [k.word] (.token t)).Met shows :=
  ⟨{ kind := k, text := k.word.2, line := 0, pos := 0 }, Demand.met_word k rfl⟩

theorem tight_ne_none (shows : Kind → Bool) (hk : k.isLoose = false) (hcomma : k ≠ .comma) (m : Mark) (parts : List Node) :
    (Node.node k m parts).tight shows ≠ none := by
  rw [Node.tight_node]
  split
  · nofun
  · cases k with
    | comma => exact absurd rfl hcomma
    | assign | binary | unary | conditional => cases hk
    | _ => nofun

/-- An expression in parentheses is derived with them, or at the level of its words. -/
theorem settled_parens (hshows : ∀ k : Kind, k.isLoose → shows k)
    (hd : d.Gives (Rebuilds shows) (.expr .comma .plain) n) : Settled shows n.inParens := by
  obtain ⟨k, m, parts, rfl, -⟩ := hd.formed.exists_node
  have hown : (Node.node k m parts).every (Node.isRestorable shows) →
      (Demand.closed expr ((Node.node k m parts).words shows) (.node (.node k m parts))).Met shows :=
    fun hevery => hd.closed rfl rfl rfl ⟨hevery, fun _ => rfl, nofun⟩
  have hinner : (Node.node k m parts).inParens.every (Node.isRestorable shows) →
      (Node.node k m parts).every (Node.isRestorable shows) := by
    rw [Node.inParens, Node.every_modifyMark]
    exact id
  by_cases hnew : (shows k && !m.parens)
  · -- The parentheses are shown, and were not there before.
    rw [Bool.and_eq_true] at hnew
    refine ⟨.primary, by rw [Node.tight_inParens, if_pos hnew.1], fun hevery => ?_⟩
    have hmet := Demand.Met.built (r := ⟨.expr .primary .noBrace, [.t .lparen, expr, .t .rparen], .parens⟩) (by decide)
      (.word _ (.cons (hown (hinner hevery)) (.word _ .nil))) rfl rfl (v := .node (Node.node k m parts).inParens) rfl
    refine hmet.to_plain.words_congr ?_
    rw [Node.words_inParens, hnew.1, hnew.2]
    simp [parensIf]
  · have hnot : (shows k && !m.parens) = false := by simpa using hnew
    have hwords : (Node.node k m parts).inParens.words shows = (Node.node k m parts).words shows := by
      rw [Node.words_inParens, hnot]
      rfl
    have hstrip : (Value.node (.node k m parts)).strip shows = (Value.node (Node.node k m parts).inParens).strip shows :=
      congrArg Value.node (Node.strip_inParens_eq k m parts hnot).symm
    cases hk : shows k with
    | true =>
      have hm : m.parens := by
        rw [hk] at hnot
        simpa using hnot
      refine ⟨.primary, by rw [Node.tight_inParens, if_pos hk], fun hevery => ?_⟩
      have htight : (Node.node k m parts).tight shows = some .primary := by rw [Node.tight_node, hk, hm]; rfl
      rw [hwords]
      exact (hd.holds.tight _ _ _ hd.symbol hd.value (hinner hevery) _ htight).congr hstrip
    | false =>
      by_cases hcomma : k = .comma
      · refine ⟨.comma, by rw [Node.tight_inParens, hk, if_pos hcomma]; rfl, fun hevery => ?_⟩
        rw [hwords]
        exact (hown (hinner hevery)).congr hstrip
      · have hloose : k.isLoose = false := by
          by_contra h
          rw [hshows k (by simpa using h)] at hk
          cases hk
        obtain ⟨t, ht⟩ := Option.ne_none_iff_exists'.1 (tight_ne_none shows hloose hcomma m parts)
        refine ⟨t, by rw [Node.tight_inParens, hk, if_neg hcomma]; exact ht, fun hevery => ?_⟩
        rw [hwords]
        exact (hd.holds.tight _ _ _ hd.symbol hd.value (hinner hevery) t ht).congr hstrip

/-! ## Members and calls -/

theorem Fine.of_not_bare (hevery : n.every (Node.isRestorable shows)) (hbare : n.isBare shows = false)
    (hs : s.isLeading = false) : Fine shows s n := by
  constructor
  · exact hevery
  · intro hb
    rw [hbare] at hb
    cases hb
  · intro hl
    rw [hs] at hl
    cases hl

/-- The rules for access and calls, after a member as well as after a call. -/
def baseRules (b : Level) : List Rule :=
  accessRules (.expr b .plain) ++
    [⟨.expr .call .plain, [.n (.expr b .plain), .n .arguments], .make .call 0 [.part 0, .items 1]⟩]

theorem base_listed (t : Option Level) : ∀ r ∈ baseRules (baseLevel t), r ∈ rules := by
  have hcall : (baseRules .call).all rules.contains := by decide
  have hmember : (baseRules .member).all rules.contains := by decide
  intro r hr
  rw [← contains_iff_mem]
  unfold baseLevel at hr
  split at hr
  · exact all_eq_true.1 hcall r hr
  · exact all_eq_true.1 hmember r hr

theorem base_plain (t : Option Level) : ∀ r ∈ baseRules (baseLevel t), r.isPicky = false := by
  unfold baseLevel
  split <;> decide

def argumentWords (shows : Kind → Bool) (ns : List Node) : List Word :=
  TokenKind.lparen.word :: joined (some .comma) (ns.map (Node.words shows)) ++ [TokenKind.rparen.word]

theorem met_arguments (hd : d.Gives (Rebuilds shows) .arguments x)
    (h : ∀ y ∈ x.items, y.every (Node.isRestorable shows) ∧ y.isBare shows = false) :
    (Demand.closed (.n .arguments) (argumentWords shows x.items) (.node x)).Met shows := by
  have hlist : x = .absent ∨ ∃ ns, x = .seq ns := by
    have hsuits := hd.orderly.suits
    rw [hd.symbol] at hsuits
    obtain ⟨x', hx', hformed⟩ := hsuits
    cases hd.value.symm.trans hx'
    cases hformed with
    | absent _ => exact .inl rfl
    | seq _ _ => exact .inr ⟨_, rfl⟩
    | node place _ _ _ _ => cases place
  have hbare : x.isBare shows = false := by
    rcases hlist with rfl | ⟨ns, rfl⟩ <;> rfl
  refine (hd.wording rfl rfl (.of_not_bare (every_of_items hlist h) hbare rfl)).words_congr ?_
  rw [Derivation.wording, hd.symbol]
  simp [Sym.signs, Nonterminal.signs, Sign.words, nodeAt_eval hd.value, argumentWords]

section

variable {l : Level} {v : Variant} (hd : d.Gives (Rebuilds shows) (.expr l v) n)
  (hl : l.isTight = true) (line : Nat)

include hd hl

theorem settled_dot (he : e.Gives (Rebuilds shows) .identifier x) : Settled shows (.node .dot { line } [n, x]) := by
  refine ⟨baseLevel (n.tight shows), Node.tight_node shows _ _ _, fun hevery => ?_⟩
  obtain ⟨hrestorable, hparts⟩ := parts_of_every hevery
  have hbare := not_bare_of_parts rfl hrestorable
  have hbase := hd.base hl (hparts n (by simp)) (hbare n (by simp))
  have hname := he.closed rfl rfl rfl (.of_not_bare (hparts x (by simp)) (hbare x (by simp)) rfl)
  have hrule : _ ∈ baseRules (baseLevel (n.tight shows)) := mem_cons_of_mem _ mem_cons_self
  have hmet := Demand.Met.built (base_listed _ _ hrule) (.cons hbase (.word _ (.cons hname .nil)))
    (base_plain _ _ hrule) rfl (v := .node (.node .dot { line } [n, x])) rfl
  refine hmet.words_congr ?_
  simp [Node.words_node, Kind.form, parensIf]

theorem settled_bracket (he : e.Gives (Rebuilds shows) (.expr .comma .plain) x) :
    Settled shows (.node .bracket { line } [n, x]) := by
  refine ⟨baseLevel (n.tight shows), Node.tight_node shows _ _ _, fun hevery => ?_⟩
  obtain ⟨hrestorable, hparts⟩ := parts_of_every hevery
  have hbare : n.isBare shows = false := by
    by_contra hb
    have hmem := Node.mem_commaParts (j := 0) hrestorable (by simpa using hb)
    simp [Kind.commaParts] at hmem
  have hbase := hd.base hl (hparts n (by simp)) hbare
  have hindex := he.closed rfl rfl rfl ⟨hparts x (by simp), fun _ => rfl, nofun⟩
  have hrule : _ ∈ baseRules (baseLevel (n.tight shows)) := mem_cons_self
  have hmet := Demand.Met.built (base_listed _ _ hrule) (.cons hbase (.word _ (.cons hindex (.word _ .nil))))
    (base_plain _ _ hrule) rfl (v := .node (.node .bracket { line } [n, x])) rfl
  refine hmet.words_congr ?_
  simp [Node.words_node, Kind.form, parensIf]

theorem settled_call (he : e.Gives (Rebuilds shows) .arguments x) : Settled shows (.node .call { line } (n :: x.items)) := by
  refine ⟨.call, Node.tight_node shows _ _ _, fun hevery => ?_⟩
  obtain ⟨hrestorable, hparts⟩ := parts_of_every hevery
  have hbare := not_bare_of_parts rfl hrestorable
  have hbase := hd.base hl (hparts n (by simp)) (hbare n (by simp))
  have hargs := met_arguments he fun y hy => ⟨hparts y (by simp [hy]), hbare y (by simp [hy])⟩
  have hrule : _ ∈ baseRules (baseLevel (n.tight shows)) :=
    mem_cons_of_mem _ (mem_cons_of_mem _ mem_cons_self)
  have hmet := Demand.Met.built (base_listed _ _ hrule) (.cons hbase (.cons hargs .nil)) (base_plain _ _ hrule) rfl
    (v := .node (.node .call { line } (n :: x.items))) (by simp [Action.run, Slot.fill]; rfl)
  refine hmet.words_congr ?_
  simp [Node.words_node, Kind.form, parensIf, argumentWords]

/-- Creation is written with arguments. -/
theorem settled_new (hargs : (∀ y ∈ x.items, y.every (Node.isRestorable shows) ∧ y.isBare shows = false) →
      (Demand.closed (.n .arguments) (argumentWords shows x.items) (.node x)).Met shows) :
    Settled shows (.node .newExpr { line } [n, .seq x.items]) := by
  refine ⟨.member, Node.tight_node shows _ _ _, fun hevery => ?_⟩
  obtain ⟨hrestorable, hparts⟩ := parts_of_every hevery
  have hbare := not_bare_of_parts rfl hrestorable
  have hbase := hd.base hl (hparts n (by simp)) (hbare n (by simp))
  have hfirst : n.tight shows ≠ some .call := Node.tight_first hrestorable
  rw [baseLevel, if_neg hfirst] at hbase
  have hlist := hargs (items_of_every (hparts (.seq x.items) (by simp)))
  have hmet := Demand.Met.built
    (r := ⟨.expr .member .plain, [.t .kwNew, .n (.expr .member .plain), .n .arguments], .make .newExpr 1 [.part 1, .list [2]]⟩)
    (by decide) (.word _ (.cons hbase (.cons hlist .nil))) rfl rfl
    (v := .node (.node .newExpr { line } [n, .seq x.items])) (by simp [Action.run, Slot.fill]; rfl)
  refine hmet.words_congr ?_
  simp [Node.words_node, Kind.form, parensIf, argumentWords, Node.items]

theorem settled_create (he : e.Gives (Rebuilds shows) .arguments x) :
    Settled shows (.node .newExpr { line } [n, .seq x.items]) :=
  settled_new hd hl line (met_arguments he)

theorem settled_createBare : Settled shows (.node .newExpr { line } [n, .seq []]) :=
  settled_new (x := .absent) hd hl line fun _ => .built (r := ⟨.arguments, [.t .lparen, .t .rparen], .absent⟩) (by decide)
    (.word _ (.word _ .nil)) rfl rfl rfl

end

theorem settled_name (hd : d.Gives (Rebuilds shows) .identifier n) :
    Settled shows (n.modifyMark fun m => { m with candidate := true, inExpr := true }) := by
  have hsuits := hd.orderly.suits
  rw [hd.symbol] at hsuits
  obtain ⟨n', hn', hformed⟩ := hsuits
  cases hd.value.symm.trans hn'
  obtain ⟨text, m, rfl, -⟩ := hformed.name rfl hformed.isAbsent_eq_false
  refine ⟨.primary, ?_, fun hevery => ?_⟩
  · rw [Node.modifyMark, Node.tight_node]
    split <;> rfl
  · rw [Node.every_modifyMark] at hevery
    have hmet := hd.closed rfl rfl rfl (.of_not_bare hevery rfl rfl)
    have hname := Demand.Met.built (r := ⟨.expr .primary .noBrace, [.n .identifier], .nameExpr⟩) (by decide)
      (.cons hmet .nil) rfl rfl
      (v := .node ((Node.node (.identifier text) m []).modifyMark fun m => { m with candidate := true, inExpr := true })) rfl
    refine hname.to_plain.words_congr ?_
    rw [Node.words_modifyMark shows (f := fun m => { m with candidate := true, inExpr := true }) fun _ => rfl]
    simp

theorem settled_this (line : Nat) : Settled shows (.node .this { line } []) := by
  refine ⟨.primary, Node.tight_node shows _ _ _, fun _ => ?_⟩
  have hthis : (Demand.closed (.n (.expr .primary .noBrace)) _ (.node (.node .this { line } []))).Met shows :=
    .built (r := ⟨_, [.t .kwThis], .make .this 0 []⟩) (by decide) (.word _ .nil) rfl rfl rfl
  exact hthis.to_plain

attribute [local simp] Slot.fill nodeAt arg evalAll

/-- What a rule for tight expressions builds is derived at the level of its words. -/
theorem settled_of_tightRule (hshows : ∀ k : Kind, k.isLoose → shows k) (hr : TightRule r) {line : Nat}
    (h : (rule r line below).Orderly) (ih : ∀ d ∈ below, d.Rebuilds shows)
    (hn : (rule r line below).eval.value = .node n) : Settled shows n := by
  cases h with
  | rule listed spells orderly chain =>
    have hbelow := below_of_spells hr.not_mem_right spells orderly ih
    cases hr with
    | atom l v hA =>
      obtain ⟨d, _, x, rfl, hd, rfl⟩ := hbelow
      cases hd.value.symm.trans hn
      exact settled_atom hd hA
    | name =>
      obtain ⟨d, _, x, rfl, hd, rfl⟩ := hbelow
      cases hn
      rw [show nodeAt (evalAll [d]) 0 = x by simp [hd.value]]
      exact settled_name hd
    | this =>
      cases hn
      exact settled_this _
    | parens =>
      obtain ⟨t, _, rfl, -, d, _, x, rfl, hd, t', _, rfl, -, rfl⟩ := hbelow
      cases hn
      rw [show nodeAt (evalAll [t, d, t']) 1 = x by simp [hd.value]]
      exact settled_parens hshows hd
    | dot l v hl =>
      obtain ⟨d, _, x, rfl, hd, t, _, rfl, -, e, _, y, rfl, he, rfl⟩ := hbelow
      cases hn
      have hparts : [Slot.part 0, .part 2].flatMap (Slot.fill (evalAll [d, t, e])) = [x, y] := by
        simp [hd.value, he.value]
      rw [hparts]
      exact settled_dot hd hl _ he
    | bracket l v hl =>
      obtain ⟨d, _, x, rfl, hd, t, _, rfl, -, e, _, y, rfl, he, t', _, rfl, -, rfl⟩ := hbelow
      cases hn
      have hparts : [Slot.part 0, .part 2].flatMap (Slot.fill (evalAll [d, t, e, t'])) = [x, y] := by
        simp [hd.value, he.value]
      rw [hparts]
      exact settled_bracket hd hl _ he
    | call l v hl =>
      obtain ⟨d, _, x, rfl, hd, e, _, y, rfl, he, rfl⟩ := hbelow
      cases hn
      have hparts : [Slot.part 0, .items 1].flatMap (Slot.fill (evalAll [d, e])) = x :: y.items := by
        simp [hd.value, he.value]
      rw [hparts]
      exact settled_call hd hl _ he
    | create v =>
      obtain ⟨t, _, rfl, -, d, _, x, rfl, hd, e, _, y, rfl, he, rfl⟩ := hbelow
      cases hn
      have hparts : [Slot.part 1, .list [2]].flatMap (Slot.fill (evalAll [t, d, e])) = [x, .seq y.items] := by
        simp [hd.value, he.value]
      rw [hparts]
      exact settled_create hd rfl _ he
    | createBare v =>
      obtain ⟨t, _, rfl, -, d, _, x, rfl, hd, rfl⟩ := hbelow
      cases hn
      have hparts : [Slot.part 1, .list []].flatMap (Slot.fill (evalAll [t, d])) = [x, .seq []] := by
        simp [hd.value]
      rw [hparts]
      exact settled_createBare hd rfl _

end

end Grammar

end JsMinify
