import JsMinify.Proofs.Parser.Restore

/-!
# Expressions at the beginning of a statement

The grammar has its expressions twice: a copy of its own is for the beginning of a statement, where neither an object nor
a named function may stand first. A derivation by one copy is turned into one by the other rule by rule (`Apt.turn`).
From the copy for the beginning of a statement this always works (`Apt.brace`). The way back fails in one more place than
it should: the copy takes no object on the right of `&`, `^`, `|`, `&&` and `||` either. It is shown for tame derivations
(`Derivation.isTame`). These leave out a named function on the right of the same operators too, although it is parsed there.
-/

namespace JsMinify

namespace Grammar

variable {d : Derivation} {ws : List Word} {x : Node} {all : Bool} {ds : List Derivation}

/-- A symbol in another variant. -/
def Sym.turn (g : Nonterminal → Nonterminal) : Sym → Sym
  | .t k => .t k
  | .n A => .n (g A)

def turnAll (g : Nonterminal → Nonterminal) (all : Bool) : List Sym → List Sym
  | [] => []
  | s :: ss => s.turn g :: if all then turnAll g all ss else ss

def Rule.turned (g : Nonterminal → Nonterminal) (all : Bool) (r : Rule) : Rule := ⟨g r.left, turnAll g all r.right, r.action⟩

/-- The rule is for one of the operators with both sides in the same variant. -/
def Rule.isLoose : Rule → Bool
  | ⟨.expr l _, [_, .t _, _], _⟩ => [.bitAnd, .bitXor, .bitOr, .logicalAnd, .logicalOr].contains l
  | _ => false

namespace Derivation

mutual
/-- The derivation does not begin as a statement does, and neither do the right sides of some operators in it. -/
def isTame : Derivation → Bool
  | .token _ => true
  | .rule r _ below => !beginsStatement ((tokensAll below).map Token.word) && tameAll r.isLoose below

/-- The first derivation, or all of them, may stand at the beginning of a statement. -/
def tameAll (all : Bool) : List Derivation → Bool
  | [] => true
  | d :: ds => isTame d && (!all || tameAll all ds)
end

/-- A derivation of a symbol in another variant, with the same tokens and the same value. -/
structure Turns (g : Nonterminal → Nonterminal) (d d' : Derivation) : Prop where
  apt : d'.Apt
  symbol : d'.symbol = d.symbol.turn g
  tokens : d'.tokens = d.tokens
  eval : d'.eval = d.eval
  precedes : ∀ e, d.Precedes e → d'.Precedes e

variable {g : Nonterminal → Nonterminal} {P : Derivation → Prop}

theorem Turns.token {t : Token} (h : Turns g d (.token t)) : d = .token t := by
  have hs := h.symbol
  cases d with
  | token u =>
    have htokens := h.tokens
    rw [Derivation.tokens, Derivation.tokens] at htokens
    rw [(List.cons.inj htokens).1]
  | rule => cases hs

/-- What stands below a rule is turned with it. -/
theorem exists_turns (h : ∀ d ∈ ds, d.Apt ∧ (P d → ∃ d', Turns g d d')) (hP : ∀ d ∈ if all then ds else ds.take 1, P d)
    (hchain : ds.IsChain Precedes) :
    ∃ ds', ds'.map symbol = turnAll g all (ds.map symbol) ∧ (∀ d ∈ ds', d.Apt) ∧ tokensAll ds' = tokensAll ds ∧
      evalAll ds' = evalAll ds ∧ ds'.IsChain Precedes ∧ ∀ t, ds'.head? = some (.token t) → ds.head? = some (.token t) := by
  induction ds with
  | nil => exact ⟨[], rfl, by simp, rfl, rfl, .nil, by simp⟩
  | cons d ds ih =>
    rw [List.isChain_cons] at hchain
    obtain ⟨hd, hds⟩ := List.forall_mem_cons.1 h
    obtain ⟨d', hd'⟩ := hd.2 (hP d (by cases all <;> simp))
    have hfirst : ∀ t, some d' = some (.token t) → some d = some (.token t) := by
      intro t ht
      cases ht
      rw [hd'.token]
    cases all with
    | false =>
      refine ⟨d' :: ds, ?_, List.forall_mem_cons.2 ⟨hd'.apt, fun e he => (hds e he).1⟩, ?_, ?_, ?_, hfirst⟩
      · simp [turnAll, hd'.symbol]
      · rw [tokensAll, tokensAll, hd'.tokens]
      · rw [evalAll, evalAll, hd'.eval]
      · exact List.isChain_cons.2 ⟨fun e he => hd'.precedes e (hchain.1 e he), hchain.2⟩
    | true =>
      obtain ⟨ds', hsymbols, hapt, htokens, hevals, hchain', hhead⟩ :=
        ih hds (fun e he => hP e (List.mem_cons_of_mem d he)) hchain.2
      refine ⟨d' :: ds', ?_, List.forall_mem_cons.2 ⟨hd'.apt, hapt⟩, ?_, ?_, ?_, hfirst⟩
      · simp [turnAll, hd'.symbol, hsymbols]
      · rw [tokensAll, tokensAll, hd'.tokens, htokens]
      · rw [evalAll, evalAll, hd'.eval, hevals]
      · refine List.isChain_cons.2 ⟨fun e he t ht => ?_, hchain'⟩
        subst ht
        exact hd'.precedes _ (hchain.1 _ (hhead t he)) t rfl

/-- A derivation is turned into one of another variant if its rules are, or it is turned as a whole. -/
theorem Apt.turn (hopen : ∀ A, g A ≠ A → (g A).isOpen = false)
    (hrule : ∀ r line below, (Derivation.rule r line below).Apt → P (.rule r line below) → g r.left ≠ r.left →
      (∃ d', Turns g (.rule r line below) d') ∨ ∃ all, r.turned g all ∈ rules ∧ (r.turned g all).isPicky = false ∧
        ∀ d ∈ if all then below else below.take 1, P d) (h : d.Apt) (hP : P d) : ∃ d', Turns g d d' := by
  induction h with
  | token t => exact ⟨.token t, .token t, rfl, rfl, rfl, fun _ he => he⟩
  | @rule r line below listed spells apt chain kept ih =>
    have h : (Derivation.rule r line below).Apt := .rule listed spells apt chain kept
    by_cases hsame : g r.left = r.left
    · exact ⟨_, h, by rw [symbol, Sym.turn, hsame], rfl, rfl, fun _ he => he⟩
    rcases hrule r line below h hP hsame with hwhole | ⟨all, hlisted, hpicky, hbelow⟩
    · exact hwhole
    · obtain ⟨ds, hsymbols, hapt, htokens, hevals, hchain, -⟩ :=
        exists_turns (fun d hd => ⟨apt d hd, ih d hd⟩) hbelow chain
      rw [spells] at hsymbols
      have hturned : (Derivation.rule (r.turned g all) line ds).Apt :=
        .rule hlisted hsymbols hapt hchain fun hp => by rw [hpicky] at hp; cases hp
      refine ⟨_, hturned, rfl, htokens, ?_, fun e _ t _ => hturned.valid.ends_eq_false (hopen _ hsame) t.kind⟩
      rw [eval, eval, hevals]
      rfl

end Derivation

/-! ## The two copies -/

/-- The variant of a nonterminal that may begin with a brace. -/
def Nonterminal.braced : Nonterminal → Nonterminal
  | .expr l .noBrace => .expr l .plain
  | A => A

/-- The rules of one copy are rules of the other, but for the primary expressions, and the tight ones on the way back. -/
theorem rules_turned : ∀ r ∈ rules, (r.left.braced = r.left ∨ r.left = .expr .primary .noBrace ∨
      r.turned .braced true ∈ rules ∧ (r.turned .braced true).isPicky = false) ∧
    (r.left.unbraced = r.left ∨ (Sym.n r.left).isTight ∨
      r.turned .unbraced r.isLoose ∈ rules ∧ (r.turned .unbraced r.isLoose).isPicky = false) := by
  decide +kernel

namespace Derivation

/-- What may stand at the beginning of a statement may stand anywhere. -/
theorem Apt.brace (h : d.Apt) : ∃ d', Turns .braced d d' := by
  refine h.turn (P := fun _ => True) (fun A hA => ?_) (fun r line below h _ hne => ?_) trivial
  · cases A with
    | expr l v => cases v <;> first | rfl | exact absurd rfl hA
    | _ => exact absurd rfl hA
  · have hlisted : r ∈ rules := by cases h; assumption
    rcases (rules_turned r hlisted).1 with hsame | hprimary | ⟨hlisted', hpicky⟩
    · exact absurd hsame hne
    · refine .inl ⟨.rule ⟨.expr .primary .plain, [.n (.expr .primary .noBrace)], .pass 0⟩ 0 [.rule r line below], ?_, ?_, ?_,
        rfl, fun _ he => he⟩
      · exact .rule (by decide) (by simp [symbol, hprimary]) (by simpa using h) (.singleton _) nofun
      · simp [symbol, Sym.turn, hprimary, Nonterminal.braced]
      · simp [tokens, tokensAll]
    · exact .inr ⟨true, hlisted', hpicky, fun _ _ => trivial⟩

theorem mem_tameAll (h : tameAll all ds) : ∀ d ∈ if all then ds else ds.take 1, d.isTame = true := by
  induction ds with
  | nil => cases all <;> nofun
  | cons d ds ih =>
    rw [tameAll, Bool.and_eq_true] at h
    cases all with
    | false => simpa using h.1
    | true => exact List.forall_mem_cons.2 ⟨h.1, ih h.2⟩

/-- What is tame may stand at the beginning of a statement. -/
theorem Apt.lead (h : d.Apt) (htame : d.isTame) : ∃ d', Turns .unbraced d d' := by
  refine h.turn (P := fun d => d.isTame = true) (fun A hA => ?_) (fun r line below h htame hne => ?_) htame
  · cases A with
    | expr l v => cases v <;> first | rfl | exact absurd rfl hA
    | _ => exact absurd rfl hA
  · have hlisted : r ∈ rules := by cases h; assumption
    rw [isTame, Bool.and_eq_true, Bool.not_eq_true'] at htame
    rcases (rules_turned r hlisted).2 with hsame | htight | ⟨hlisted', hpicky⟩
    · exact absurd hsame hne
    · obtain ⟨d', hapt, hsymbol, htokens, heval⟩ := h.unbrace htight htame.1
      exact .inl ⟨d', hapt, hsymbol, htokens, heval, fun e _ t _ =>
        hapt.valid.ends_eq_false (by rw [hsymbol]; exact isOpen_unbraced htight) t.kind⟩
    · exact .inr ⟨r.isLoose, hlisted', hpicky, mem_tameAll htame.2⟩

end Derivation

/-! ## Texts -/

variable {shows : Kind → Bool} {text : String}

/-- A text that is one statement. -/
theorem parse_of_statement (h : Demand.Met shows ⟨.n .statement, ws, .node x, fun _ => true⟩) (htext : SplitsInto text ws) :
    ∃ tree p, parse text = (.ok tree, p) ∧ tree.strip shows = (Node.node .program {} [x]).strip shows := by
  have hlist := Demand.Met.rule (r := ⟨.sourceElementList, [.n .sourceElement], .seq [.part 0]⟩) (by decide) [_]
    (by simpa using met_sourceElement h) rfl (.singleton _) rfl (fun _ => true) (fun _ _ => rfl) fun _ _ => rfl
  obtain ⟨d, hd⟩ := Demand.Met.rule (r := ⟨.program, [.n .sourceElements], .make .program 0 [.items 0]⟩) (by decide) [_]
    (by simpa using hlist.pass (b := .sourceElements) (by decide) rfl) rfl (.singleton _) rfl (fun _ => true)
    (fun _ _ => rfl) fun _ _ => rfl
  have hwords : (tokenize text).1.map Token.word = d.tokens.map Token.word := by
    rw [hd.words]
    exact htext.1.trans (by simp)
  obtain ⟨tree, p, hparse, hstrip⟩ :=
    parse_of_preferred (strip_congruence shows) (hd.apt.preferred nofun) hd.symbol hwords htext.2
  exact ⟨tree, p, hparse, Value.node.inj (hstrip.trans hd.value)⟩

/-- An expression of the copy for the beginning of a statement, and a semicolon. -/
theorem met_exprStatement (h : (Demand.closed (.n (.expr .comma .noBrace)) ws (.node x)).Met shows) :
    (Demand.closed (.n .statement) (ws ++ [TokenKind.semi.word]) (.node (.node .exprStmt {} [x]))).Met shows := by
  have hstatement := Demand.Met.built
    (r := ⟨.exprStatement, [.n (.expr .comma .noBrace), .t .semi], .make .exprStmt 0 [.part 0]⟩) (by decide)
    (.cons h (.word _ .nil)) rfl rfl (v := .node (.node .exprStmt {} [x])) rfl
  exact (hstatement.pass (b := .statement) (by decide) rfl).words_congr (by simp)

/-- A text that is an expression of the copy for the beginning of a statement, and a semicolon. -/
theorem parse_of_expression (h : (Demand.closed (.n (.expr .comma .noBrace)) ws (.node x)).Met shows)
    (htext : SplitsInto text (ws ++ [TokenKind.semi.word])) :
    ∃ tree p, parse text = (.ok tree, p) ∧ tree.strip shows = (Node.node .program {} [.node .exprStmt {} [x]]).strip shows :=
  parse_of_statement ((met_exprStatement h).relax fun _ => true) htext

/-- The two copies of the expressions agree. An expression of either copy is parsed between parentheses and with a
semicolon behind it. Without the parentheses it is parsed as well, into the same expression, if it is one of the copy for
the beginning of a statement, or else is tame. -/
theorem statement_start_agrees {d : Derivation} (h : d.Apt) {v : Variant} (hs : d.symbol = .n (.expr .comma v))
    (hv : v ≠ .noIn) {x : Node} (hx : d.eval.value = .node x) {alone enclosed : String}
    (halone : SplitsInto alone (d.tokens.map Token.word ++ [TokenKind.semi.word]))
    (henclosed : SplitsInto enclosed
      (TokenKind.lparen.word :: d.tokens.map Token.word ++ [TokenKind.rparen.word, TokenKind.semi.word])) :
    (∃ tree p, parse enclosed = (.ok tree, p) ∧ tree.strip (fun _ => true) =
      (Node.node .program {} [.node .exprStmt {} [x.inParens]]).strip fun _ => true) ∧
      (v = .noBrace ∨ d.isTame = true → ∃ tree p, parse alone = (.ok tree, p) ∧ tree.strip (fun _ => true) =
        (Node.node .program {} [.node .exprStmt {} [x]]).strip fun _ => true) := by
  have met {g : Nonterminal → Nonterminal} {d' : Derivation} (hd : d.Turns g d') (hg : (g (.expr .comma v)).isOpen = false) :
      (Demand.closed (.n (g (.expr .comma v))) (d.tokens.map Token.word) (.node x)).Met fun _ => true := by
    have hsymbol : d'.symbol = .n (g (.expr .comma v)) := by rw [hd.symbol, hs]; rfl
    refine ⟨d', hd.apt, hsymbol, by rw [hd.tokens]; rfl, by rw [hd.eval, hx]; rfl, fun k hk => ?_⟩
    rw [hd.apt.valid.ends_eq_false (by rw [hsymbol]; exact hg)] at hk
    cases hk
  constructor
  · obtain ⟨d', hd⟩ := h.brace
    have hinner : (Demand.closed expr (d.tokens.map Token.word) (.node x)).Met fun _ => true := by
      cases v with
      | noIn => exact absurd rfl hv
      | _ => exact met hd rfl
    obtain ⟨t, ht⟩ := exists_word (fun _ => true) .lparen
    obtain ⟨t', ht'⟩ := exists_word (fun _ => true) .rparen
    have hmet := Demand.Met.closed_rule (fun _ => true)
      (r := ⟨.expr .primary .noBrace, [.t .lparen, expr, .t .rparen], .parens⟩) (by decide)
      [(.t .lparen, _, .token t), (expr, _, .node x), (.t .rparen, _, .token t')]
      (by simpa using ⟨ht, hinner, ht'⟩) rfl rfl rfl (v := .node x.inParens) rfl
    refine parse_of_expression (hmet.climb (v := .noBrace) (rfl : Level.comma.covers 20 .primary = true)) ?_
    simpa using henclosed
  · intro hlead
    have hmet : (Demand.closed (.n (.expr .comma .noBrace)) (d.tokens.map Token.word) (.node x)).Met fun _ => true := by
      cases v with
      | noIn => exact absurd rfl hv
      | noBrace => exact met (g := id) ⟨h, by rw [hs]; rfl, rfl, rfl, fun _ he => he⟩ rfl
      | plain =>
        obtain ⟨d', hd⟩ := h.lead (hlead.resolve_left nofun)
        exact met hd rfl
    exact parse_of_expression hmet halone

/-- An object on the right of `||` can be parsed between parentheses only. -/
theorem object_stops_statement : ∃ d : Derivation, d.Apt ∧ d.symbol = expr ∧ d.isTame = false ∧
      d.tokens.map Token.word = [TokenKind.kwThis, .orElse, .lbrace, .rbrace].map TokenKind.word ∧
      (∃ tree p, parse "(this||\x7b\x7d);" = (.ok tree, p)) ∧ (parse "this||\x7b\x7d;").1.isOk = false := by
  let shows : Kind → Bool := fun _ => true
  obtain ⟨t, ht⟩ := exists_word shows .kwThis
  obtain ⟨t₁, ht₁⟩ := exists_word shows .orElse
  obtain ⟨t₂, ht₂⟩ := exists_word shows .lbrace
  obtain ⟨t₃, ht₃⟩ := exists_word shows .rbrace
  have hthis := (Demand.Met.closed_rule shows (r := ⟨.expr .primary .noBrace, [.t .kwThis], .make .this 0 []⟩) (by decide)
    [(.t .kwThis, _, .token t)] (by simpa using ht) rfl rfl rfl rfl).to_plain
  have hobject := Demand.Met.pass (b := .expr .primary .plain) (by decide) rfl (Demand.Met.closed_rule shows
    (r := ⟨.objectLiteral, [.t .lbrace, .t .rbrace], .make .object 0 []⟩) (by decide)
    [(.t .lbrace, _, .token t₂), (.t .rbrace, _, .token t₃)] (by simpa using ⟨ht₂, ht₃⟩) rfl rfl rfl rfl)
  have hor := Demand.Met.closed_rule shows (r := ⟨.expr .logicalOr .plain, [.n (.expr .logicalOr .plain), .t .orElse,
      .n (.expr .logicalAnd .plain)], .operator .binary 1 [.part 0, .part 2]⟩) (by decide)
    [(.n (.expr .logicalOr .plain), _, _), (.t .orElse, _, .token t₁), (.n (.expr .logicalAnd .plain), _, _)]
    (by simpa using ⟨hthis.climb (v := .plain) (rfl : Level.logicalOr.covers 20 .primary = true), ht₁,
      hobject.climb (v := .plain) (rfl : Level.logicalAnd.covers 20 .primary = true)⟩) rfl rfl rfl rfl
  obtain ⟨d, hd⟩ := hor.climb (v := .plain) (rfl : Level.comma.covers 20 .logicalOr = true)
  have hwords : d.tokens.map Token.word = [TokenKind.kwThis, .orElse, .lbrace, .rbrace].map TokenKind.word := hd.words
  have hvalue := hd.value
  cases hx : d.eval.value with
  | token u =>
    rw [hx] at hvalue
    cases hvalue
  | node x =>
    have halone : SplitsInto "this||\x7b\x7d;" (d.tokens.map Token.word ++ [TokenKind.semi.word]) := by
      rw [hwords]
      exact ⟨by decide +kernel, ok_of_toOption (by decide +kernel)⟩
    have henclosed : SplitsInto "(this||\x7b\x7d);"
        (TokenKind.lparen.word :: d.tokens.map Token.word ++ [TokenKind.rparen.word, TokenKind.semi.word]) := by
      rw [hwords]
      exact ⟨by decide +kernel, ok_of_toOption (by decide +kernel)⟩
    have hrefused : (parse "this||\x7b\x7d;").1.isOk = false := by decide +kernel
    obtain ⟨⟨tree, p, hparse, -⟩, hlead⟩ :=
      statement_start_agrees hd.apt (v := .plain) hd.symbol nofun hx halone henclosed
    refine ⟨d, hd.apt, hd.symbol, Bool.eq_false_iff.2 fun htame => ?_, hwords, ⟨tree, p, hparse⟩, hrefused⟩
    obtain ⟨tree', p', hparse', -⟩ := hlead (.inr htame)
    rw [hparse'] at hrefused
    cases hrefused

end Grammar

end JsMinify
