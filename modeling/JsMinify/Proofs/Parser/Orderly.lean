import JsMinify.Proofs.Parser.Complete
import JsMinify.Proofs.Parser.Shapes
import Mathlib.Data.List.Chain

/-!
# The choices in a derivation

Where a rule is contested by a token, the automaton shifts the token. So in the derivation of a parsed text no
token stands right behind a derivation that ends with a rule which the token contests: the derivation is
`Orderly` (`parse_orderly`). This speaks of the rules and not of what comes next in a text, so it is easily kept
when a derivation is taken apart and built again.

The other way round, an orderly derivation that shuns no rule (`Apt`) is one that the automaton follows:
`Derivation.Apt.preferred`.
-/

namespace JsMinify

open List

variable {d : Grammar.Derivation} {ds : List Grammar.Derivation} {k : TokenKind} {i : Nat}

namespace Grammar

namespace Derivation

mutual
/-- The derivation ends with a rule that is contested by the token. -/
def ends (k : TokenKind) : Derivation → Bool
  | .token _ => false
  | .rule r _ below => r.contested == some k || endsAll k below

/-- The last one of some derivations ends with a rule that is contested by the token. -/
def endsAll (k : TokenKind) : List Derivation → Bool
  | [] => false
  | [d] => ends k d
  | _ :: d :: ds => endsAll k (d :: ds)
end

/-- The derivation does not end with a rule that is contested by what stands right behind it. -/
def Precedes (d e : Derivation) : Prop := ∀ t, e = .token t → d.ends t.kind = false

/-- The derivation is valid, its tokens are genuine, and no rule is contested by the token right behind it. -/
inductive Orderly : Derivation → Prop where
  | token {t : Token} (genuine : t.isGenuine = true) : Orderly (.token t)
  | rule {r : Rule} {line : Nat} {below : List Derivation} (listed : r ∈ rules)
      (spells : below.map symbol = r.right) (orderly : ∀ d ∈ below, Orderly d)
      (chain : below.IsChain Precedes) : Orderly (.rule r line below)

theorem Orderly.valid (h : d.Orderly) : d.Valid := by
  induction h with
  | token _ => exact .token _
  | rule listed spells _ _ ih => exact .rule listed spells ih

/-- What an orderly derivation stands for is built as its symbol asks for. -/
theorem Orderly.suits (h : d.Orderly) : Suits d.symbol d.eval.value := by
  induction h with
  | token genuine => exact ⟨_, rfl, by simp, genuine⟩
  | rule listed spells _ _ ih => exact Rule.run_suits listed (itemsHold_below spells ih)

theorem endsAll_eq (k : TokenKind) (ds : List Derivation) : endsAll k ds = ds.getLast?.any (ends k) := by
  induction ds with
  | nil => rfl
  | cons d ds ih =>
    cases ds with
    | nil => rfl
    | cons e ds => rw [endsAll, ih, getLast?_cons_cons]

theorem Valid.contested_of_ends (h : d.Valid) (hk : d.ends k) : ∃ r ∈ rules, r.contested = some k := by
  induction h with
  | token _ => cases hk
  | @rule r line below listed _ _ ih =>
    rw [ends, Bool.or_eq_true, beq_iff_eq, endsAll_eq] at hk
    rcases hk with hk | hk
    · exact ⟨r, listed, hk⟩
    · obtain ⟨d, hd, hk⟩ := (Option.any_eq_true _ _).1 hk
      exact ih d (mem_of_getLast? hd) hk

end Derivation

/-! ## The derivations of parsed texts -/

namespace Table

/-- Where a contested rule may be reduced, the token that contests it is shifted, and what comes next is looked
at. -/
def contests (q : State) : Bool :=
  (reductions q).all fun e =>
    ((rule? e.2).bind Rule.contested).all fun k => (forced? q).isNone && ((shifts q).lookup k).isSome

theorem states_contest : ∀ q < stateCount, contests q := by decide +kernel

theorem not_semi : ∀ r ∈ rules, r.contested ≠ some .semi := by decide +kernel

/-- A contested rule is not reduced before the token that contests it. -/
theorem contested_ne {q : State} (hq : q < stateCount) {r : Rule} (hr : rule? i = some r)
    (hk : r.contested = some k) : forced? q ≠ some i ∧ ∀ a, move q a = some (.reduce i) → a ≠ some k := by
  have hcheck := states_contest q hq
  have hentry : ∀ la, (la, i) ∈ reductions q → (forced? q).isNone ∧ ((shifts q).lookup k).isSome := by
    intro la hla
    have := all_eq_true.1 hcheck _ hla
    rw [hr, Option.bind_some, hk] at this
    exact Bool.and_eq_true _ _ ▸ this
  constructor
  · intro hforced
    obtain ⟨la, hla⟩ := mem_of_forced? hforced
    have hnone := (hentry la hla).1
    rw [hforced] at hnone
    cases hnone
  · rintro a hmove rfl
    unfold move at hmove
    split at hmove
    · cases hmove
    · next hlookup =>
      split at hmove
      · cases hmove
      · obtain ⟨e, he, hreduce⟩ := Option.map_eq_some_iff.1 hmove
        obtain rfl := Move.reduce.inj hreduce
        have hsome := (hentry e.1 (mem_of_find?_eq_some he)).2
        rw [Option.bind_some] at hlookup
        rw [hlookup] at hsome
        cases hsome

end Table

end Grammar

open Grammar

/-- The derivations of the symbols on the stack, the latest first: no token contests a rule before it, and neither
does the token ahead. -/
structure Arranged (c : Config) (ds : List Derivation) : Prop where
  explained : List.Forall₂ Config.Explains ds c.stack
  orderly : ∀ d ∈ ds, d.Orderly
  chain : ds.IsChain fun e d => d.Precedes e
  ahead : ∀ d ∈ ds.head?, ∀ k, d.ends k = true → ∃ look, c.ahead = some look ∧ look.map (·.kind) ≠ some k

namespace Arranged

variable {c : Config}

/-- A reduction keeps the derivations in order. -/
theorem reduce (h : Arranged c ds) (hc : Config.Stacked c.stack) {r : Rule} (why : c.Reduces i)
    (rule : Table.rule? i = some r) (handle : c.Handle r) : Arranged (c.reduced r)
      (.rule r c.parser.lexer.line (ds.take r.right.length).reverse :: ds.drop r.right.length) := by
  have hright : List.Forall₂ Config.Explains (ds.take r.right.length).reverse (c.stack.take r.right.length).reverse :=
    forall₂_reverse_iff.2 (forall₂_take _ h.explained)
  refine ⟨Config.Explains.reduce h.explained rule handle, ?_, ?_, ?_⟩
  · rw [forall_mem_cons]
    constructor
    · refine .rule (Table.mem_rules_of_rule? rule) ((Config.Explains.symbols hright).trans handle) ?_ ?_
      · intro d hd
        exact h.orderly d (mem_of_mem_take (mem_reverse.1 hd))
      · rw [isChain_reverse]
        exact h.chain.take _
    · exact fun d hd => h.orderly d (mem_of_mem_drop hd)
  · rw [isChain_cons]
    exact ⟨fun d _ t ht => (by cases ht), h.chain.drop _⟩
  · intro d hd k hk
    cases hd
    rw [Derivation.ends, Bool.or_eq_true, beq_iff_eq, Derivation.endsAll_eq, getLast?_reverse] at hk
    rcases hk with hk | hk
    · -- The rule itself is contested: it was reduced before another token.
      obtain ⟨hforced, hmove⟩ := Table.contested_ne hc.state_lt rule hk
      rw [← Config.state_eq] at hforced hmove
      rcases why with forced | ⟨-, look, ahead, entry⟩
      · exact absurd forced hforced
      · exact ⟨look, ahead, hmove _ entry⟩
    · obtain ⟨d, hd, hk⟩ := (Option.any_eq_true _ _).1 hk
      refine h.ahead d ?_ k hk
      cases ds with
      | nil => simp at hd
      | cons e ds =>
        cases hlen : r.right.length with
        | zero =>
          rw [hlen] at hd
          cases hd
        | succ n =>
          rw [hlen] at hd
          exact hd

variable {r : Recorded}

/-- After each step there are derivations in order. -/
theorem step (h : Arranged r.config ds) (hg : r.Genuine) (hc : Config.Stacked r.config.stack)
    (hs : r.config.step = .next c) : ∃ ds', Arranged c ds' := by
  cases Config.goes_of_step hs with
  | reduce why rule handle => exact ⟨_, h.reduce hc why rule handle⟩
  | read _ unread _ =>
    refine ⟨ds, h.explained, h.orderly, h.chain, fun d hd k hk => ?_⟩
    obtain ⟨look, hlook, -⟩ := h.ahead d hd k hk
    rw [unread] at hlook
    cases hlook
  | @shift t s _ look _ =>
    refine ⟨.token t :: ds, .cons ⟨.token t, rfl, rfl⟩ h.explained, ?_, ?_, ?_⟩
    · exact forall_mem_cons.2 ⟨.token (hg.ahead t look), h.orderly⟩
    · rw [isChain_cons]
      refine ⟨fun d hd u hu => ?_, h.chain⟩
      obtain rfl := Derivation.token.inj hu
      by_contra hk
      obtain ⟨look', hlook', hne⟩ := h.ahead d hd t.kind (by simpa using hk)
      cases look.symm.trans hlook'
      exact hne rfl
    · intro d hd k hk
      cases hd
      cases hk
  | @putOff look _ ahead _ _ _ =>
    refine ⟨ds, h.explained, h.orderly, h.chain, fun d hd k hk => ⟨_, rfl, ?_⟩⟩
    obtain ⟨r', hr', hcontested⟩ := (h.orderly d (mem_of_mem_head? hd)).valid.contested_of_ends hk
    have hsemi := Table.not_semi r' hr'
    rw [hcontested] at hsemi
    rintro hlook
    refine hsemi (hlook.symm.trans ?_)
    cases look <;> rfl

/-- So there are after a whole run. -/
theorem record (h : Arranged r.config ds) (hg : r.Genuine) (hc : Config.Stacked r.config.stack) (fuel : Nat) :
    ∃ ds', Arranged (record fuel r).config ds' := by
  refine (record_keeps (P := fun r => (∃ ds, Arranged r.config ds) ∧ r.Genuine ∧ Config.Stacked r.config.stack) ?_
    ⟨⟨ds, h⟩, hg, hc⟩ fuel).1
  rintro r c ⟨⟨ds, h⟩, hg, hc⟩ hs
  rw [follow_config]
  exact ⟨h.step hg hc hs, hg.step hs, hc.step hs⟩

end Arranged

/-- A parsed tree is the value of an orderly derivation of a program. -/
theorem parse_orderly {text : String} {tree : Node} {p : Parser} (h : parse text = (.ok tree, p)) :
    ∃ d : Derivation, d.Orderly ∧ d.symbol = .n .program ∧ d.eval.value = .node tree := by
  have hgenuine : Recorded.Genuine { config := Config.start text } :=
    ⟨by simp [Config.start, Lexer.input], by simp [Config.start], by simp⟩
  have hstart : Arranged (Config.start text) [] := ⟨.nil, by simp, .nil, by simp⟩
  obtain ⟨ds, hds⟩ := hstart.record (r := { config := Config.start text }) hgenuine .nil (Parser.budget text.length)
  have haccepted := record_accepted (r := { config := Config.start text }) h
  have halone := ((start_traced text).record (Parser.budget text.length)).alone
  cases Config.ends_of_step haccepted (fun _ => Progress.noConfusion) with
  | @accepted f rest _ _ stack sym value =>
    obtain rfl := halone [] f rest stack sym
    have hexplained := hds.explained
    rw [stack] at hexplained
    obtain ⟨d, ds', hd, hrest, rfl⟩ := forall₂_cons_right_iff.1 hexplained
    exact ⟨d, hds.orderly d mem_cons_self, hd.symbol.trans sym, by rw [hd.eval, value]⟩

namespace Grammar

/-! ## Following an orderly derivation -/

/-- The tokens that contest a rule. -/
def contenders : List TokenKind := [.kwElse, .kwIn]

/-- The symbols begin with a token, or with tokens that contest no rule. -/
def beginsFree : List Sym → Bool
  | [] | .t _ :: _ => true
  | .n A :: rest => !(A.isNullable && rest.all Sym.isNullable) &&
    contenders.all fun k => !(begin (.n A :: rest) 0).testBit (aheadBit (some k))

/-- What stands behind each nonterminal among some symbols begins with a token, or with tokens that contest no
rule. -/
def isSpaced : List Sym → Bool
  | [] => true
  | .t _ :: rest => isSpaced rest
  | .n _ :: rest => beginsFree rest && isSpaced rest

theorem rules_spaced : ∀ r ∈ rules, isSpaced r.right ∧ r.contested.all contenders.contains := by decide +kernel

namespace Derivation

/-- The derivation is valid, no rule is contested by the token right behind it, and none is shunned by the rule
above. -/
inductive Apt : Derivation → Prop where
  | token (t : Token) : Apt (.token t)
  | rule {r : Rule} {line : Nat} {below : List Derivation} (listed : r ∈ rules)
      (spells : below.map symbol = r.right) (apt : ∀ d ∈ below, Apt d) (chain : below.IsChain Precedes)
      (kept : r.isPicky = true → ∀ d ∈ below, d.isShunned = false) : Apt (.rule r line below)

theorem Apt.valid (h : d.Apt) : d.Valid := by
  induction h with
  | token t => exact .token t
  | rule listed spells _ _ _ ih => exact .rule listed spells ih

variable {next : Option TokenKind}

/-- A derivation does not end with a rule that is contested by the first token of those behind it. -/
theorem Apt.not_ends (hd : d.Apt) (hds : ∀ e ∈ ds, e.Valid) (hchain : (d :: ds).IsChain Precedes)
    (hfree : beginsFree (ds.map symbol)) (hne : ds ≠ [])
    (hk : headOf (tokensAll ds) next = some k) : d.ends k = false := by
  cases ds with
  | nil => exact absurd rfl hne
  | cons e ds =>
    cases e with
    | token t =>
      obtain rfl : t.kind = k := Option.some.inj hk
      exact (isChain_cons_cons.1 hchain).1 t rfl
    | rule r line below =>
      -- What begins with a nonterminal begins with none of the tokens that contest a rule.
      by_contra hends
      obtain ⟨r', hr', hcontested⟩ := hd.valid.contested_of_ends (Bool.not_eq_false _ ▸ hends)
      have hcontender := rules_spaced r' hr'
      rw [hcontested] at hcontender
      obtain ⟨hfirst, hnone⟩ := Begins.all fun e he => (hds e he).begins
      rw [map_cons, symbol, beginsFree, Bool.and_eq_true, Bool.not_eq_true'] at hfree
      cases htokens : tokensAll (.rule r line below :: ds) with
      | nil =>
        have hnull := hnone htokens
        rw [map_cons, symbol, all_cons] at hnull
        exact Bool.false_ne_true (hfree.1.symm.trans hnull)
      | cons t ts =>
        rw [htokens] at hk
        obtain rfl : t.kind = k := Option.some.inj hk
        have hbit := hfirst t ts htokens
        have hnot := all_eq_true.1 hfree.2 t.kind (contains_iff_mem.1 hcontender.2)
        rw [map_cons, symbol] at hbit
        rw [hbit] at hnot
        cases hnot

theorem preferredAll_of_apt
    (h : ∀ d ∈ ds, d.Apt ∧ ∀ next, (∀ k, next = some k → d.ends k = false) → d.Preferred next) (hchain : ds.IsChain Precedes)
    (hspaced : isSpaced (ds.map symbol)) (hends : ∀ k, next = some k → endsAll k ds = false) :
    PreferredAll next ds := by
  induction ds with
  | nil => trivial
  | cons d ds ih =>
    obtain ⟨hd, hds⟩ := forall_mem_cons.1 h
    have hrest : isSpaced (ds.map symbol) → PreferredAll next ds := by
      cases ds with
      | nil => exact fun _ => trivial
      | cons e ds => exact fun hspaced => ih hds (isChain_cons_cons.1 hchain).2 hspaced hends
    cases d with
    | token t => exact ⟨trivial, hrest hspaced⟩
    | rule r line below =>
      rw [map_cons, symbol, isSpaced, Bool.and_eq_true] at hspaced
      refine ⟨hd.2 _ fun k hk => ?_, hrest hspaced.2⟩
      cases ds with
      | nil => exact hends k hk
      | cons e ds =>
        exact hd.1.not_ends (fun e he => (hds e he).1.valid) hchain hspaced.1 (cons_ne_nil _ _) hk

/-- The automaton follows an apt derivation before all that contests no rule at its end. -/
theorem Apt.preferred (h : d.Apt) (hends : ∀ k, next = some k → d.ends k = false) : d.Preferred next := by
  induction h generalizing next with
  | token t => trivial
  | @rule r line below listed spells apt chain kept ih =>
    have hspaced := rules_spaced r listed
    rw [← spells] at hspaced
    have hends' : ∀ k, next = some k → r.contested ≠ some k ∧ endsAll k below = false := by
      intro k hk
      have := hends k hk
      rw [ends, Bool.or_eq_false_iff] at this
      exact ⟨fun hc => by rw [hc] at this; simp at this, this.2⟩
    refine ⟨listed, spells, fun k hk hnext => (hends' k hnext).1 hk, kept, ?_⟩
    exact preferredAll_of_apt (fun d hd => ⟨apt d hd, fun _ => ih d hd⟩) chain hspaced.1 fun k hk => (hends' k hk).2

end Derivation

end Grammar

end JsMinify
