import JsMinify.Proofs.Node.Clean
import JsMinify.Proofs.Parser.Expressions

/-!
# Arrays, objects and clauses

The words of an array with holes, of an object that ends with a comma and of a `switch` do not follow the right
sides of the rules for these. A hole is written as a comma of its own, the comma at the end of an object is lost,
and the default clause is written last. Here these rules are built again, from derivations of what stands below
them (`restores_of_rewritten`).
-/

namespace JsMinify

open List Node

/-! ## The words of elements -/

/-- A hole of an array, without parentheses. -/
def Node.isHole : Node → Bool
  | .node (.elision _) m [] => !m.parens
  | _ => false

def Node.elements (shows : Kind → Bool) (ns : List Node) : List Word := elementWords (ns.map fun n => (n, n.words shows))

section

variable {shows : Kind → Bool} {hs : List Node}

theorem Node.words_hole (shows : Kind → Bool) {n : Node} (h : n.isHole) : n.isElision ∧ n.words shows = [TokenKind.comma.word] := by
  unfold isHole at h
  split at h
  · next text m =>
    have hm : m.parens = false := by simpa using h
    exact ⟨rfl, by simp [words_node, hm, parensIf, Kind.form]⟩
  · cases h

theorem elements_holes_append (h : ∀ x ∈ hs, x.isHole) (ns : List Node) :
    elements shows (hs ++ ns) = joined none (hs.map (words shows)) ++ elements shows ns := by
  induction hs with
  | nil => rfl
  | cons x hs ih =>
    obtain ⟨hx, hrest⟩ := forall_mem_cons.1 h
    obtain ⟨helision, hwords⟩ := words_hole shows hx
    have hrest := ih hrest
    rw [joined_none] at hrest ⊢
    rw [map_cons, flatten_cons, hwords, append_assoc, ← hrest]
    simp [elements, elementWords, helision]

theorem elements_holes (h : ∀ x ∈ hs, x.isHole) : elements shows hs = joined none (hs.map (words shows)) := by
  have happend : elements shows (hs ++ []) = _ := elements_holes_append h []
  rwa [append_nil, show elements shows [] = [] from rfl, append_nil] at happend

/-- Behind an item that is no hole, there is a comma before the next one. -/
theorem elements_append {x : Node} (hx : x.isElision = false) {zs : List Node} (hz : zs ≠ []) (ys : List Node) :
    elements shows (ys ++ x :: zs) = elements shows (ys ++ [x]) ++ TokenKind.comma.word :: elements shows zs := by
  unfold elements
  induction ys with
  | nil => simp [elementWords, hx, hz]
  | cons y ys ih =>
    simp only [map_append, map_cons, map_nil] at ih
    cases hy : y.isElision <;> simp [elementWords, hy, ih]

end

namespace Grammar

open JsMinify.Grammar.Derivation

/-! ## Holes -/

/-- The rules for holes of arrays. -/
theorem hole_rules : rules.filter (fun r => r.left == .elisionOpt || r.left == .elision) =
      [⟨.elisionOpt, [.n .empty], .seq []⟩, ⟨.elisionOpt, [.n .elision], .pass 0⟩,
        ⟨.elision, [.t .comma], .seq [.leaf .elision 0]⟩,
        ⟨.elision, [.n .elision, .t .comma], .seq [.items 0, .leaf .elision 1]⟩] := by
  decide

/-- The rules for lists of elements. -/
theorem element_rules : rules.filter (fun r => r.left == .elementList) =
      [⟨.elementList, [.n .elisionOpt, assignmentExpr], .seq [.items 0, .part 1]⟩,
        ⟨.elementList, [.n .elementList, .t .comma, .n .elisionOpt, assignmentExpr], .seq [.items 0, .items 2, .part 3]⟩] := by
  decide

theorem Derivation.Valid.holes {d : Derivation} (h : d.Valid) (hs : d.symbol = .n .elisionOpt ∨ d.symbol = .n .elision)
    {n : Node} (hn : d.eval.value = .node n) : ∀ x ∈ n.items, x.isHole := by
  induction h generalizing n with
  | token t => rcases hs with hs | hs <;> cases hs
  | @rule r line below listed spells _ ih =>
    have hmem := mem_of_filter_eq hole_rules listed (by simpa [symbol] using hs)
    simp only [mem_cons, not_mem_nil, or_false] at hmem
    rcases hmem with rfl | rfl | rfl | rfl
    · cases hn
      exact nofun
    · obtain ⟨d, rfl, hd⟩ := map_eq_singleton_iff.1 spells
      exact ih d (by simp) (.inr hd) hn
    · cases hn
      exact fun x hx => by
        obtain rfl := mem_singleton.1 hx
        rfl
    · simp only [map_eq_cons_iff, map_eq_nil_iff] at spells
      obtain ⟨d, _, rfl, hd, t, _, rfl, -, rfl⟩ := spells
      cases hn
      intro x hx
      rcases mem_append.1 hx with hx | hx
      · change x ∈ (nodeAt (evalAll [d, t]) 0).items at hx
        unfold nodeAt at hx
        split at hx
        · next y hy => exact ih d (by simp) (.inr hd) hy x hx
        · cases hx
      · obtain rfl := mem_singleton.1 hx
        rfl

section

variable {shows : Kind → Bool} {P : Derivation → Prop} {r : Rule} {ws : List Word} {xs : List (List Word × Node)}
  {n : Node} {d : Derivation}

/-! ## The words of derivations -/

namespace Derivation

theorem wording_word {k : TokenKind} (hs : d.symbol = .t k) (hk : k.text?.isSome) : d.wording shows = [k.word] := by
  rw [wording, hs, Sym.signs, if_pos hk, wordsOf_cons]
  rfl

variable {A : Nonterminal} {sep : Option TokenKind}

section

variable (hn : d.eval.value = .node n)

include hn

theorem wording_items (hs : d.symbol = .n A) (hA : A.signs 0 = [.items sep 0]) :
    d.wording shows = joined sep (n.items.map (words shows)) := by
  rw [wording, hs, Sym.signs, hA, wordsOf_cons, wordsOf_nil, append_nil, Sign.words, nodeAt_eval hn]

theorem wording_elements (hs : d.symbol = .n .elementList) : d.wording shows = Node.elements shows n.items := by
  rw [wording, hs, Sym.signs, Nonterminal.signs, wordsOf_cons, wordsOf_nil, append_nil, Sign.words, nodeAt_eval hn]
  rfl

theorem wording_caseBlock (hs : d.symbol = .n .caseBlock) : d.wording shows =
    TokenKind.lbrace.word :: joined none ((n.items.getD 0 .absent).items.map (words shows)) ++
      (n.items.getD 1 .absent).words shows ++ [TokenKind.rbrace.word] := by
  rw [wording, hs, Sym.signs, Nonterminal.signs]
  simp [Sign.words, nodeAt_eval hn]

end

theorem Gives.listed (h : d.Gives P A n)
    (hA : A.signs 0 = [.items sep 0]) : d.wording shows = joined sep (n.items.map (Node.words shows)) :=
  wording_items h.value h.symbol hA

theorem Gives.holes (h : d.Gives P .elisionOpt n) : ∀ x ∈ n.items, x.isHole :=
  h.orderly.valid.holes (.inl h.symbol) h.value

/-- A rule is kept if it writes what stands below it. -/
theorem own_of_wording {line : Nat} {below : List Derivation} (h : (rule r line below).Orderly)
    (plain : r.isPicky = false) (hbelow : ∀ d ∈ below, (d.demand shows).Met shows)
    (hwords : (rule r line below).wording shows = below.flatMap (wording shows)) :
    ((rule r line below).demand shows).Met shows := by
  have hmet := met_of_below h plain hbelow
  rw [← hwords] at hmet
  exact hmet

/-- A derivation from the same words can take the place of one, if nothing is contested at its end. -/
theorem own_of_closed {s : Sym} (hs : d.symbol = s) {v : Value}
    (h : (Demand.closed s ws v).Met shows) (hwords : d.wording shows = ws)
    (hv : v.strip shows = d.eval.value.strip shows) : (d.demand shows).Met shows := by
  rw [demand, hs, hwords]
  exact (h.congr hv).relax _

end Derivation

/-- The rule is built again if all that stands below it is. -/
def Rule.Restores (shows : Kind → Bool) (r : Rule) : Prop :=
  ∀ line below, (rule r line below).Orderly → (∀ d ∈ below, (d.demand shows).Met shows) →
    ((rule r line below).demand shows).Met shows

theorem Rule.restores (hright : .n .assignmentOperator ∉ r.right) (h : r ∈ rules → ∀ line below,
      (rule r line below).Orderly → Below (fun d => (d.demand shows).Met shows) r.right below → (∀ d ∈ below, (d.demand shows).Met shows) →
      ((rule r line below).demand shows).Met shows) : r.Restores shows := by
  intro line below horderly hbelow
  have hrule := horderly
  cases hrule with
  | rule listed spells orderly _ => exact h listed line below horderly (below_of_spells hright spells orderly hbelow) hbelow

/-! ## Arrays -/

theorem words_array {m : Mark} (hm : m.parens = false) (ns : List Node) : (node .array m ns).words shows =
    TokenKind.lbracket.word :: Node.elements shows ns ++ [TokenKind.rbracket.word] := by
  simp [words_node, hm, parensIf, Kind.form, Node.elements]

attribute [local simp] Slot.fill nodeAt arg evalAll Action.run

/-- The items of a list of elements end with one that is no hole. -/
theorem Derivation.Gives.elementList (h : d.Gives P .elementList n) : ∃ ys y, n.items = ys ++ [y] ∧ y.isElision = false := by
  obtain ⟨hs, horderly, hn, -⟩ := h
  cases horderly with
  | token _ => cases hs
  | @rule r line below listed spells orderly chain =>
    have hmem := mem_of_filter_eq element_rules listed (by simpa using Sym.n.inj hs)
    simp only [mem_cons, not_mem_nil, or_false] at hmem
    rcases hmem with rfl | rfl
    · simp only [map_eq_cons_iff, map_eq_nil_iff] at spells
      obtain ⟨e, _, rfl, -, d, _, rfl, hd, rfl⟩ := spells
      obtain ⟨x, hx, hformed⟩ := (orderly d (by simp)).expression hd
      cases hn
      refine ⟨(nodeAt (evalAll [e, d]) 0).items, x, ?_, hformed.isElision_eq_false rfl (by decide)⟩
      simp [items, hx]
    · simp only [map_eq_cons_iff, map_eq_nil_iff] at spells
      obtain ⟨e, _, rfl, -, t, _, rfl, -, e', _, rfl, -, d, _, rfl, hd, rfl⟩ := spells
      obtain ⟨x, hx, hformed⟩ := (orderly d (by simp)).expression hd
      cases hn
      refine ⟨(nodeAt (evalAll [e, t, e', d]) 0).items ++ (nodeAt (evalAll [e, t, e', d]) 2).items, x, ?_,
        hformed.isElision_eq_false rfl (by decide)⟩
      simp [items, hx]

theorem restores_array_of_holes : Rule.Restores shows ⟨.arrayLiteral, [.t .lbracket, .n .elisionOpt, .t .rbracket], .make .array 1 [.items 1]⟩ := by
  refine Rule.restores (by decide) fun _ line below horderly parts hbelow => ?_
  obtain ⟨t, _, rfl, ht, d, _, x, rfl, hd, t', _, rfl, ht', rfl⟩ := parts
  have hparts : [Slot.items 1].flatMap (Slot.fill (evalAll [t, d, t'])) = x.items := by
    simp [hd.value]
  apply own_of_wording horderly rfl hbelow
  rw [wording_node rfl rfl, hparts, words_array rfl, elements_holes hd.holes]
  simp [wording_word ht rfl, hd.listed rfl, wording_word ht' rfl]

/-- A comma behind the last item of an array is not written, unless there are holes behind it. -/
theorem restores_array : Rule.Restores shows ⟨.arrayLiteral, [.t .lbracket, .n .elementList, .t .comma, .n .elisionOpt, .t .rbracket],
      .make .array 0 [.items 1, .items 3]⟩ := by
  refine Rule.restores (by decide) fun _ line below horderly parts hbelow => ?_
  obtain ⟨t, _, rfl, ht, d, _, x, rfl, hd, t', _, rfl, ht', e, _, y, rfl, he, t'', _, rfl, ht'', rfl⟩ := parts
  have hparts : [Slot.items 1, .items 3].flatMap (Slot.fill (evalAll [t, d, t', e, t''])) = x.items ++ y.items := by
    simp [hd.value, he.value]
  obtain ⟨xs, last, hlast, helision⟩ := hd.elementList
  by_cases hnil : y.items = []
  · -- A comma behind the last item is not written.
    have hlist := closed_of_met hd.holds hd.symbol rfl hd.value
    have hmet := Demand.Met.built
      (r := ⟨.arrayLiteral, [.t .lbracket, .n .elementList, .t .rbracket], .make .array 0 [.items 1]⟩)
      (by decide) (.word _ (.cons hlist (.word _ .nil))) rfl rfl (v := .node (.node .array { line := 0 } x.items))
      (by simp; rfl)
    apply own_of_closed rfl hmet
    · rw [wording_node rfl rfl, hparts, words_array rfl, hnil, append_nil]
      simp [wording_elements hd.value hd.symbol]
    · change _ = Value.strip shows (.node (.node .array _ _))
      rw [hparts, hnil, append_nil]
      rfl
  · apply own_of_wording horderly rfl hbelow
    rw [wording_node rfl rfl, hparts, words_array rfl, hlast, append_assoc, singleton_append,
      elements_append helision hnil, ← hlast, elements_holes he.holes]
    simp [wording_word ht rfl, wording_elements hd.value hd.symbol, wording_word ht' rfl, he.listed rfl, wording_word ht'' rfl]

theorem restores_first_element : Rule.Restores shows ⟨.elementList, [.n .elisionOpt, assignmentExpr], .seq [.items 0, .part 1]⟩ := by
  refine Rule.restores (by decide) fun _ line below horderly parts hbelow => ?_
  obtain ⟨e, _, y, rfl, he, d, _, x, rfl, hd, rfl⟩ := parts
  have hparts : [Slot.items 0, .part 1].flatMap (Slot.fill (evalAll [e, d])) = y.items ++ [x] := by
    simp [hd.value, he.value]
  have helision : x.isElision = false := hd.formed.isElision_eq_false rfl (by decide)
  apply own_of_wording horderly rfl hbelow
  rw [wording_elements rfl rfl, hparts, items, elements_holes_append he.holes]
  simp [he.listed rfl, hd.words rfl, Node.elements, elementWords, helision]

theorem restores_next_element : Rule.Restores shows ⟨.elementList, [.n .elementList, .t .comma, .n .elisionOpt, assignmentExpr],
      .seq [.items 0, .items 2, .part 3]⟩ := by
  refine Rule.restores (by decide) fun _ line below horderly parts hbelow => ?_
  obtain ⟨d', _, x', rfl, hd', t, _, rfl, ht, e, _, y, rfl, he, d, _, x, rfl, hd, rfl⟩ := parts
  have hparts : [Slot.items 0, .items 2, .part 3].flatMap (Slot.fill (evalAll [d', t, e, d])) =
      x'.items ++ (y.items ++ [x]) := by
    simp [hd.value, hd'.value, he.value]
  have helision : x.isElision = false := hd.formed.isElision_eq_false rfl (by decide)
  obtain ⟨xs, last, hlast, hitem⟩ := hd'.elementList
  apply own_of_wording horderly rfl hbelow
  rw [wording_elements rfl rfl, hparts, items, hlast, append_assoc, singleton_append,
    elements_append hitem (by simp), ← hlast, elements_holes_append he.holes]
  simp [wording_elements hd'.value hd'.symbol, wording_word ht rfl, he.listed rfl, hd.words rfl, Node.elements, elementWords,
    helision]

/-- The comma at the end of an object is not written. -/
theorem restores_object : Rule.Restores shows ⟨.objectLiteral, [.t .lbrace, .n .propertyList, .t .comma, .t .rbrace],
      .make .object 1 [.items 1]⟩ := by
  refine Rule.restores (by decide) fun _ line below horderly parts hbelow => ?_
  obtain ⟨t, _, rfl, ht, d, _, x, rfl, hd, t', _, rfl, ht', t'', _, rfl, ht'', rfl⟩ := parts
  have hparts : [Slot.items 1].flatMap (Slot.fill (evalAll [t, d, t', t''])) = x.items := by
    simp [hd.value]
  have hlist := closed_of_met hd.holds hd.symbol rfl hd.value
  have hmet := Demand.Met.built
    (r := ⟨.objectLiteral, [.t .lbrace, .n .propertyList, .t .rbrace], .make .object 1 [.items 1]⟩) (by decide)
    (.word _ (.cons hlist (.word _ .nil))) rfl rfl (v := .node (.node .object { line := 0 } x.items))
    (by simp; rfl)
  apply own_of_closed rfl hmet
  · rw [wording_node rfl rfl, hparts]
    simp [words_node, Kind.form, parensIf, markAt, hd.listed rfl]
  · change _ = Value.strip shows (.node (.node .object _ _))
    rw [hparts]
    rfl

/-! ## Clauses -/

/-- The rules for clauses. -/
theorem clause_rules : rules.filter (fun r => r.left == .caseClausesOpt || r.left == .caseClauses) =
      [⟨.caseClausesOpt, [.n .empty], .pass 0⟩, ⟨.caseClausesOpt, [.n .caseClauses], .pass 0⟩,
        ⟨.caseClauses, [.n .caseClause], .seq [.part 0]⟩,
        ⟨.caseClauses, [.n .caseClauses, .n .caseClause], .seq [.items 0, .part 1]⟩] := by
  decide

/-- The rules for what lists of clauses are made of. -/
theorem clause_part_rule (h : r ∈ rules) : (r.left = .empty → r = ⟨.empty, [], .absent⟩) ∧ (r.left = .caseClause →
      r = ⟨.caseClause, [.t .kwCase, expr, .t .colon, .n .sourceElements], .make .caseClause 1 [.part 1, .items 3]⟩) := by
  revert r
  decide +kernel

theorem Derivation.Valid.empty (h : d.Valid) (hs : d.symbol = .n .empty) : d.tokens = [] ∧ d.eval.value = .node .absent := by
  obtain ⟨r, line, below, rfl, listed, hleft, spells, -⟩ := h.exists_rule hs
  obtain rfl := (clause_part_rule listed).1 hleft
  obtain rfl := map_eq_nil_iff.1 spells
  exact ⟨rfl, rfl⟩

/-- Clauses that are derived one by one, with their words. -/
def ClausesMet (shows : Kind → Bool) (xs : List (List Word × Node)) : Prop :=
  ∀ x ∈ xs, Demand.Met shows ⟨.n .caseClause, x.1, .node x.2, fun _ => true⟩

theorem ClausesMet.append {ys : List (List Word × Node)} (h : ClausesMet shows xs) (h' : ClausesMet shows ys) :
    ClausesMet shows (xs ++ ys) :=
  fun x hx => (mem_append.1 hx).elim (h x) (h' x)

theorem Derivation.Apt.clause (shows : Kind → Bool) (h : d.Apt) (hs : d.symbol = .n .caseClause) :
    ∃ n, d.eval.value = .node n ∧ ClausesMet shows [(d.tokens.map Token.word, n)] := by
  obtain ⟨r, line, below, rfl, listed, hleft, -⟩ := h.valid.exists_rule hs
  obtain rfl := (clause_part_rule listed).2 hleft
  refine ⟨_, rfl, fun x hx => ?_⟩
  obtain rfl := mem_singleton.1 hx
  exact ⟨_, h, rfl, rfl, rfl, fun _ _ => rfl⟩

/-- A derivation of clauses derives them one by one. -/
theorem Derivation.Apt.clauses (shows : Kind → Bool) (h : d.Apt)
    (hs : d.symbol = .n .caseClausesOpt ∨ d.symbol = .n .caseClauses) :
    ∃ xs, ClausesMet shows xs ∧ d.tokens.map Token.word = xs.flatMap (·.1) ∧
      ∃ n, d.eval.value = .node n ∧ n.items = xs.map (·.2) := by
  induction h with
  | token t => rcases hs with hs | hs <;> cases hs
  | @rule r line below listed spells apt chain kept ih =>
    have hmem := mem_of_filter_eq clause_rules listed (by simpa [symbol] using hs)
    simp only [mem_cons, not_mem_nil, or_false] at hmem
    rcases hmem with rfl | rfl | rfl | rfl
    · obtain ⟨d, rfl, hd⟩ := map_eq_singleton_iff.1 spells
      obtain ⟨htokens, hvalue⟩ := (apt d (by simp)).valid.empty hd
      refine ⟨[], nofun, ?_, .absent, hvalue, rfl⟩
      rw [tokens, tokensAll, htokens]
      rfl
    · obtain ⟨d, rfl, hd⟩ := map_eq_singleton_iff.1 spells
      obtain ⟨xs, hxs, hwords, hvalue⟩ := ih d (by simp) (.inr hd)
      refine ⟨xs, hxs, ?_, hvalue⟩
      rw [← hwords, tokens, tokensAll, tokensAll, append_nil]
    · obtain ⟨d, rfl, hd⟩ := map_eq_singleton_iff.1 spells
      obtain ⟨n, hn, hmet⟩ := (apt d (by simp)).clause shows hd
      refine ⟨_, hmet, ?_, .seq [n], ?_, rfl⟩
      · simp [tokens, tokensAll]
      · simp [eval, Rule.item, hn]
    · simp only [map_eq_cons_iff, map_eq_nil_iff] at spells
      obtain ⟨d, _, rfl, hd, e, _, rfl, he, rfl⟩ := spells
      obtain ⟨xs, hxs, hwords, m, hm, hitems⟩ := ih d (by simp) (.inr hd)
      obtain ⟨n, hn, hmet⟩ := (apt e (by simp)).clause shows he
      refine ⟨_, hxs.append hmet, ?_, .seq (m.items ++ [n]), ?_, ?_⟩
      · simp [tokens, tokensAll, hwords]
      · simp [eval, Rule.item, hm, hn]
      · simp [items, ← hitems]

/-- Clauses that are derived one by one are derived together. -/
theorem ClausesMet.together (h : ClausesMet shows xs) (hne : xs ≠ []) :
    Demand.Met shows ⟨.n .caseClauses, xs.flatMap (·.1), .node (.seq (xs.map (·.2))), fun _ => true⟩ := by
  induction xs using List.reverseRecOn with
  | nil => exact absurd rfl hne
  | append_singleton xs x ih =>
    have hx : Demand.Met shows ⟨.n .caseClause, x.1, .node x.2, fun _ => true⟩ := h x (by simp)
    by_cases hxs : xs = []
    · subst hxs
      have hmet := Demand.Met.rule (r := ⟨.caseClauses, [.n .caseClause], .seq [.part 0]⟩) (by decide)
        [⟨.n .caseClause, x.1, .node x.2, fun _ => true⟩] (by simpa using hx) rfl (.singleton _) rfl (fun _ => true)
        (fun _ _ => rfl) fun _ _ => rfl
      simpa [items] using hmet
    · have hrest := ih (fun y hy => h y (by simp [hy])) hxs
      have hmet := Demand.Met.rule (r := ⟨.caseClauses, [.n .caseClauses, .n .caseClause], .seq [.items 0, .part 1]⟩)
        (by decide)
        [⟨.n .caseClauses, xs.flatMap (·.1), .node (.seq (xs.map (·.2))), fun _ => true⟩,
          ⟨.n .caseClause, x.1, .node x.2, fun _ => true⟩]
        (by simpa using ⟨hrest, hx⟩) rfl (by simp [Demand.Precedes]) rfl (fun _ => true) (fun _ _ => rfl) fun _ _ => rfl
      simpa [items] using hmet

theorem met_empty : (Demand.closed (.n .empty) [] (.node .absent)).Met shows :=
  .built (r := ⟨.empty, [], .absent⟩) (by decide) .nil rfl rfl rfl

theorem met_no_clauses : (Demand.closed (.n .caseClausesOpt) [] (.node .absent)).Met shows :=
  met_empty.pass (by decide) rfl

/-- Any number of clauses that are derived one by one are derived together. -/
theorem ClausesMet.optional (h : ClausesMet shows xs) :
    ∃ n, n.items = xs.map (·.2) ∧ Demand.Met shows ⟨.n .caseClausesOpt, xs.flatMap (·.1), .node n, fun _ => true⟩ := by
  by_cases hne : xs = []
  · subst hne
    exact ⟨.absent, rfl, met_no_clauses.relax _⟩
  · exact ⟨.seq (xs.map (·.2)), rfl, (h.together hne).pass (by decide) rfl⟩

/-- The clauses before and behind the default clause are derived together. -/
theorem met_append_clauses {ws' : List Word} {n' : Node} {ends ends' : TokenKind → Bool}
    (h : Demand.Met shows ⟨.n .caseClausesOpt, ws, .node n, ends⟩)
    (h' : Demand.Met shows ⟨.n .caseClausesOpt, ws', .node n', ends'⟩) :
    ∃ x, x.items.map (strip shows) = (n.items ++ n'.items).map (strip shows) ∧
      Demand.Met shows ⟨.n .caseClausesOpt, ws ++ ws', .node x, fun _ => true⟩ := by
  obtain ⟨d, hd⟩ := h
  obtain ⟨d', hd'⟩ := h'
  obtain ⟨xs, hxs, hwords, m, hm, hitems⟩ := hd.apt.clauses shows (.inl hd.symbol)
  obtain ⟨xs', hxs', hwords', m', hm', hitems'⟩ := hd'.apt.clauses shows (.inl hd'.symbol)
  obtain ⟨x, hx, hmet⟩ := (hxs.append hxs').optional
  refine ⟨x, ?_, ?_⟩
  · have hstrip : m.strip shows = n.strip shows := by simpa [hm, Value.strip] using hd.value
    have hstrip' : m'.strip shows = n'.strip shows := by simpa [hm', Value.strip] using hd'.value
    rw [hx, map_append, ← hitems, ← hitems', map_append, map_append, ← strip_items, ← strip_items,
      hstrip, hstrip', strip_items, strip_items]
  · have happend : ws ++ ws' = (xs ++ xs').flatMap (·.1) := by
      rw [flatMap_append, ← hwords, ← hwords', hd.words, hd'.words]
    rw [happend]
    exact hmet

theorem restores_block : Rule.Restores shows ⟨.caseBlock, [.t .lbrace, .n .caseClausesOpt, .t .rbrace], .seq [.list [1], .nothing]⟩ := by
  refine Rule.restores (by decide) fun _ line below horderly parts hbelow => ?_
  obtain ⟨t, _, rfl, ht, d, _, x, rfl, hd, t', _, rfl, ht', rfl⟩ := parts
  have hparts : [Slot.list [1], .nothing].flatMap (Slot.fill (evalAll [t, d, t'])) = [.seq x.items, .absent] := by
    simp [hd.value]
  apply own_of_wording horderly rfl hbelow
  rw [wording_caseBlock rfl rfl, hparts]
  simp [wording_word ht rfl, hd.listed rfl, wording_word ht' rfl, items]

/-- The default clause is written behind the other ones. -/
theorem restores_block_default : Rule.Restores shows ⟨.caseBlock,
      [.t .lbrace, .n .caseClausesOpt, .n .defaultClause, .n .caseClausesOpt, .t .rbrace], .seq [.list [1, 3], .part 2]⟩ := by
  refine Rule.restores (by decide) fun listed line below horderly parts hbelow => ?_
  obtain ⟨t, _, rfl, ht, d, _, x, rfl, hd, e, _, y, rfl, he, d', _, x', rfl, hd', t', _, rfl, ht', rfl⟩ := parts
  have hfirst := hd.holds
  have hlast := hd'.holds
  have hdefault := he.holds
  rw [demand, hd.symbol, hd.value] at hfirst
  rw [demand, hd'.symbol, hd'.value] at hlast
  rw [demand, he.symbol, he.value] at hdefault
  obtain ⟨z, hz, hclauses⟩ := met_append_clauses hfirst hlast
  obtain ⟨u, hu⟩ := exists_word shows .lbrace
  obtain ⟨u', hu'⟩ := exists_word shows .rbrace
  have hmet := Demand.Met.rule listed [_, _, _, _, _]
    (by simpa using ⟨hu, hclauses, hdefault, met_no_clauses, hu'⟩) rfl (by simp [Demand.Precedes, Demand.closed]) rfl
    (fun _ => true) (fun _ _ => rfl) fun _ _ => rfl
  have hparts : [Slot.list [1, 3], .part 2].flatMap (Slot.fill (evalAll [t, d, e, d', t'])) =
      [.seq (x.items ++ x'.items), y] := by
    simp [hd.value, he.value, hd'.value]
  apply own_of_closed rfl (hmet.close rfl)
  · rw [wording_caseBlock rfl rfl, hparts]
    simp [items, hd.listed rfl, hd'.listed rfl, he.words rfl, joined_none, Demand.closed]
  · change _ = Value.strip shows (.node (.seq _))
    rw [hparts]
    simpa [items, Value.strip, Demand.closed] using hz

theorem restores_switch : Rule.Restores shows ⟨.switchStatement, [.t .kwSwitch, .t .lparen, expr, .t .rparen, .n .caseBlock],
      .make .switchStmt 2 [.part 2, .items 4]⟩ := by
  refine Rule.restores (by decide) fun _ line below horderly parts hbelow => ?_
  obtain ⟨t₀, _, rfl, ht₀, t₁, _, rfl, ht₁, d, _, x, rfl, hd, t₂, _, rfl, ht₂, e, _, y, rfl, he, rfl⟩ := parts
  have hsuits := he.orderly.suits
  rw [he.symbol] at hsuits
  obtain ⟨clauses, last, hy, -⟩ := hsuits
  have hparts : [Slot.part 2, .items 4].flatMap (Slot.fill (evalAll [t₀, t₁, d, t₂, e])) = [x, clauses, last] := by
    simp [hd.value, hy, items]
  apply own_of_wording horderly rfl hbelow
  rw [wording_node rfl rfl, hparts]
  simp [words_node, Kind.form, parensIf, markAt, wording_word ht₀ rfl, wording_word ht₁ rfl,
    wording_word ht₂ rfl, hd.words rfl, wording_caseBlock hy he.symbol,
    items]

theorem rewritten_rules : rules.filter (fun r => r.isRewritten && !r.left.isTight) =
      [⟨.arrayLiteral, [.t .lbracket, .n .elisionOpt, .t .rbracket], .make .array 1 [.items 1]⟩,
        ⟨.arrayLiteral, [.t .lbracket, .n .elementList, .t .comma, .n .elisionOpt, .t .rbracket],
          .make .array 0 [.items 1, .items 3]⟩,
        ⟨.elementList, [.n .elisionOpt, assignmentExpr], .seq [.items 0, .part 1]⟩,
        ⟨.elementList, [.n .elementList, .t .comma, .n .elisionOpt, assignmentExpr], .seq [.items 0, .items 2, .part 3]⟩,
        ⟨.objectLiteral, [.t .lbrace, .n .propertyList, .t .comma, .t .rbrace], .make .object 1 [.items 1]⟩,
        ⟨.switchStatement, [.t .kwSwitch, .t .lparen, expr, .t .rparen, .n .caseBlock],
          .make .switchStmt 2 [.part 2, .items 4]⟩,
        ⟨.caseBlock, [.t .lbrace, .n .caseClausesOpt, .t .rbrace], .seq [.list [1], .nothing]⟩,
        ⟨.caseBlock, [.t .lbrace, .n .caseClausesOpt, .n .defaultClause, .n .caseClausesOpt, .t .rbrace],
          .seq [.list [1, 3], .part 2]⟩] := by
  decide

/-- What a rule for arrays, objects or clauses builds is derived from its words. -/
theorem restores_of_rewritten (hr : r ∈ rules) (hrewritten : r.isRewritten)
    (hleft : r.left.isTight = false) : r.Restores shows := by
  have hmem := mem_of_filter_eq rewritten_rules hr (by rw [hrewritten, hleft]; rfl)
  simp only [mem_cons, not_mem_nil, or_false] at hmem
  rcases hmem with rfl | rfl | rfl | rfl | rfl | rfl | rfl | rfl
  · exact restores_array_of_holes
  · exact restores_array
  · exact restores_first_element
  · exact restores_next_element
  · exact restores_object
  · exact restores_switch
  · exact restores_block
  · exact restores_block_default

end

end Grammar

end JsMinify
