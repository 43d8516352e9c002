import JsMinify.Proofs.Node.Legible
import JsMinify.Proofs.Parser.Rewritten

/-!
# Reading a tree back

The derivation of a tree that is restorable is built again from the words of the tree (`Derivation.Orderly.rebuilds`),
rule by rule. So a text with these words is parsed, and the tree is the same up to lines and lost parentheses
(`parse_of_words`).
-/

namespace JsMinify

open List

namespace Grammar

open JsMinify.Grammar.Derivation

variable {shows : Kind → Bool} {n : Node}

/-! ## Statements -/

/-- The statements that are shunned at the top are functions, and one rule shuns them. -/
theorem shunned_rules : ∀ r ∈ rules, (r.isShunned → r.left = .statement → r = ⟨.statement, [.n .functionDecl], .pass 0⟩) ∧
      (r.isPicky → r.left.isTight = false → r = ⟨.sourceElement, [.n .statement], .pass 0⟩) := by decide +kernel

/-- A statement is derived at the top, where a function is not derived as a statement. -/
theorem met_sourceElement {ws : List Word} {x : Value} {ends : TokenKind → Bool}
    (h : Demand.Met shows ⟨.n .statement, ws, x, ends⟩) : Demand.Met shows ⟨.n .sourceElement, ws, x, ends⟩ := by
  obtain ⟨d, hd⟩ := h
  cases hshunned : d.isShunned with
  | false =>
    refine ⟨.rule ⟨.sourceElement, [.n .statement], .pass 0⟩ 0 [d], .rule (by decide) ?_ ?_ (.singleton d) ?_, rfl, ?_, ?_, ?_⟩
    · rw [map_singleton, hd.symbol]
    · simpa using hd.apt
    · intro _ e he
      obtain rfl := mem_singleton.1 he
      exact hshunned
    · simpa [tokens, tokensAll] using hd.words
    · exact hd.value
    · exact hd.ends
  | true =>
    cases d with
    | token t => cases hshunned
    | rule r line below =>
      have hapt := hd.apt
      have hsymbol := hd.symbol
      cases hapt with
      | rule listed spells apt chain kept =>
        obtain rfl := (shunned_rules r listed).1 hshunned (Sym.n.inj hsymbol)
        obtain ⟨e, rfl, he⟩ := map_eq_singleton_iff.1 spells
        have hfunction : Demand.Met shows ⟨.n .functionDecl, ws, x, ends⟩ :=
          ⟨e, apt e (by simp), he, by simpa [tokens, tokensAll] using hd.words, hd.value, hd.ends⟩
        exact hfunction.pass (by decide) rfl

theorem restores_sourceElement : Rule.Restores shows ⟨.sourceElement, [.n .statement], .pass 0⟩ := by
  intro line below h hbelow
  cases h with
  | rule listed spells orderly chain =>
    obtain ⟨d, rfl, hd⟩ := map_eq_singleton_iff.1 spells
    have hmet := hbelow d (by simp)
    rw [Derivation.demand, hd] at hmet
    have hwording : (Derivation.rule ⟨.sourceElement, [.n .statement], .pass 0⟩ line [d]).wording shows = d.wording shows := by
      rw [wording, wording, hd]
      rfl
    have hends : (fun k => (Derivation.rule ⟨.sourceElement, [.n .statement], .pass 0⟩ line [d]).ends k) = fun k => d.ends k := rfl
    rw [Derivation.demand, hwording, hends]
    exact met_sourceElement hmet

/-! ## Rules -/

/-- All rules but those for tight expressions are built again. -/
theorem restores_of_loose {r : Rule} (hr : r ∈ rules) (hleft : r.left.isTight = false) : r.Restores shows := by
  cases hrewritten : r.isRewritten with
  | true => exact restores_of_rewritten hr hrewritten hleft
  | false =>
    have hlaid := rules_laid_out r hr
    rw [hrewritten, Bool.false_or] at hlaid
    cases hpicky : r.isPicky with
    | false => exact fun line below h hbelow => own_of_laidOut h hlaid hpicky hbelow
    | true =>
      obtain rfl := (shunned_rules r hr).2 hpicky hleft
      exact restores_sourceElement

/-! ## Steps between levels -/

/-- A step from a level to another: up from the tight levels, with `in` or without it only where this makes a
difference, and to the beginning of a statement only from there, unless from a tight level. -/
def Rule.isFairStep : Rule → Bool
  | ⟨.expr l v, [.n (.expr l' v')], _⟩ =>
    (!(l.isTight || l == .leftSide) || l'.isTight) && (l'.isTight || v' != .noBrace || v == .noBrace) &&
      (v != .noIn || l.isWide)
  | _ => true

theorem steps_fair : ∀ r ∈ rules, r.isStep → r.isFairStep := by decide +kernel

/-- The levels that are not tight take all expressions of tight ones. -/
theorem covers_tight {l t : Level} (hl : l.isTight = false) (ht : t = .primary ∨ t = .member ∨ t = .call) :
    l.covers 20 t := by
  rcases ht with rfl | rfl | rfl <;> cases l <;> first | rfl | cases hl

theorem Rule.exists_step {r : Rule} (h : r.isStep) : ∃ l v l' v', r = ⟨.expr l v, [.n (.expr l' v')], .pass 0⟩ := by
  unfold isStep at h
  split at h
  · next l v l' v' => exact ⟨l, v, l', v', rfl⟩
  · cases h

/-- A tight expression is derived at any level that may take it. -/
theorem met_of_tight {l t : Level} {v : Variant} (hl : l.isTight = false) (hwide : (v != .noIn || l.isWide))
    (hfine : Fine shows (.n (.expr l v)) n) (ht : n.tight shows = some t)
    (h : (Demand.closed (.n (.expr t .plain)) (n.words shows) (.node n)).Met shows) :
    (Demand.closed (.n (.expr l v)) (n.words shows) (.node n)).Met shows := by
  have hstair : l.stair v = .expr l v := by
    cases v with
    | noIn =>
      have hl : l.isWide := hwide
      simp [Level.stair, hl]
    | _ => rfl
  have settle (hcase : t = .primary ∨ t = .member ∨ t = .call) :
      (Demand.closed (.n (.expr l v)) (n.words shows) (.node n)).Met shows := by
    have htight : t.isTight := by rcases hcase with rfl | rfl | rfl <;> rfl
    have hmet := h.settle htight (covers_tight hl hcase) v fun hv => ?_
    · rwa [hstair] at hmet
    · subst hv
      exact Node.not_beginsStatement (hfine.leads rfl)
  rcases tight_cases ht with hcase | hcase | hcase | rfl
  · exact settle (.inl hcase)
  · exact settle (.inr (.inl hcase))
  · exact settle (.inr (.inr hcase))
  · -- A bare comma is left where it is, at the loosest level.
    have hbare := hfine.bare ((Node.tight_eq_comma_iff n).1 ht)
    cases l with
    | comma =>
      cases v with
      | plain => exact h
      | _ => cases hbare
    | _ => cases hbare

section

variable {l l' : Level} {v v' : Variant} {line : Nat} {d : Derivation}

/-- A rule that only leads from one level to the next. -/
theorem Derivation.Rebuilds.step (listed : (⟨.expr l v, [.n (.expr l' v')], .pass 0⟩ : Rule) ∈ rules)
    (h : (Derivation.rule ⟨.expr l v, [.n (.expr l' v')], .pass 0⟩ line [d]).Orderly) (hs : d.symbol = .n (.expr l' v'))
    (hd : d.Rebuilds shows) : (Derivation.rule ⟨.expr l v, [.n (.expr l' v')], .pass 0⟩ line [d]).Rebuilds shows := by
  have hstep := steps_fair _ listed rfl
  simp only [Rule.isFairStep, Bool.and_eq_true] at hstep
  obtain ⟨⟨hlevel, hvariant⟩, hwide⟩ := hstep
  constructor
  · intro l₁ v₁ n _ hn
    exact hd.tight l' v' n hs hn
  · intro l₁ v₁ n hsymbol hn hl
    obtain ⟨rfl, rfl⟩ := Nonterminal.expr.inj (Sym.n.inj hsymbol)
    rw [hl] at hlevel
    exact hd.known l' v' n hs hn (by rw [show l'.isTight = true from hlevel]; rfl)
  · intro hown hfine
    obtain ⟨n, hn, -⟩ := h.expression rfl
    have hfine := hfine n hn
    have hl : l.isTight = false := by simpa [Sym.isOwn, symbol] using hown
    cases ht : n.tight shows with
    | some t =>
      have hmet := met_of_tight hl hwide hfine ht (hd.tight l' v' n hs hn hfine.every t ht)
      exact own_of_closed rfl hmet (wording_node rfl hn) (by rw [hn])
    | none =>
      have hl' : l'.isTight = false := by
        by_contra htight
        rw [Bool.not_eq_false] at htight
        exact hd.known l' v' n hs hn (by rw [htight]; rfl) ht
      refine restores_of_loose listed hl line [d] h fun e he => ?_
      obtain rfl := mem_singleton.1 he
      refine hd.own (by rw [hs, Sym.isOwn, hl']; rfl) fun n' hn' => ?_
      obtain rfl : n = n' := Value.node.inj (hn.symm.trans hn')
      rw [hs]
      refine ⟨hfine.every, fun hb => ?_, fun hleading => ?_⟩
      · rw [(Node.tight_eq_comma_iff n).2 hb] at ht
        cases ht
      · apply hfine.leads
        cases v' with
        | noBrace =>
          obtain rfl : v = .noBrace := by simpa [hl'] using hvariant
          rfl
        | _ => cases hleading

end

/-! ## All derivations -/

/-- What stands below a rule that is no step to another level, and not for tight expressions. -/
def Rule.isOwn (r : Rule) : Bool :=
  r.isStep || r.left.isTight ||
    r.right.all Sym.isOwn && (r.left != .assignmentOperator || r.right.all fun s => s matches .t _) && match r.left with
      | .expr l _ => l != .leftSide && r.action.yields r.right none
      | _ => true

theorem rules_own : ∀ r ∈ rules, r.isOwn := by decide +kernel

section

variable {r : Rule} {line : Nat} {below : List Derivation} (h : (Derivation.rule r line below).Orderly)

include h

/-- What stands below a rule can be read back where it stands, if what the rule builds can. -/
theorem fine_below (hstep : r.isStep = false) (hn : (Derivation.rule r line below).eval.value = .node n)
    (hfine : Fine shows (.n r.left) n) {d : Derivation} (hd : d ∈ below) {x : Node} (hx : d.eval.value = .node x) :
    Fine shows d.symbol x := by
  cases h with
  | rule listed spells orderly chain =>
    obtain ⟨i, hi⟩ := getElem?_of_mem hd
    have hright : r.right[i]? = some d.symbol := by rw [← spells, getElem?_map, hi]; rfl
    have hsuits := (orderly d hd).suits
    cases hs : d.symbol with
    | t k =>
      rw [hs] at hsuits
      obtain ⟨t, ht, -⟩ := hsuits
      cases hx.symm.trans ht
    | n A =>
      have hA : A ≠ .assignmentOperator := by
        rintro rfl
        rw [hs] at hsuits
        obtain ⟨t, ht, -⟩ := hsuits
        cases hx.symm.trans ht
      rw [hs] at hright
      have hnode : nodeAt (evalAll below) i = x := by
        rw [nodeAt, arg, evalAll_eq, getD_eq_getElem?_getD, getElem?_map, hi, Option.map_some, Option.getD_some, hx]
      rw [← hnode]
      exact Rule.fine_at listed hstep (suits_below spells orderly) hn hfine hright hA

theorem Derivation.Rebuilds.loose (hstep : r.isStep = false) (hleft : r.left.isTight = false)
    (ih : ∀ d ∈ below, d.Rebuilds shows) : (Derivation.rule r line below).Rebuilds shows := by
  have horderly := h
  cases h with
  | rule listed spells orderly chain =>
    have hrule := rules_own r listed
    rw [Rule.isOwn, hstep, hleft, Bool.false_or, Bool.false_or, Bool.and_eq_true, Bool.and_eq_true] at hrule
    obtain ⟨⟨hown, hassign⟩, hexpr⟩ := hrule
    constructor
    · intro l v n hs hn _ t ht
      rw [show r.left = .expr l v from Sym.n.inj hs] at hexpr
      have hnone : n.tight shows = none := Action.tight_run spells
        (fun d hd t n hyields hn => (orderly d hd).valid.tight_eq shows hyields hn) (Bool.and_eq_true _ _ ▸ hexpr).2 hn
      rw [hnone] at ht
      cases ht
    · intro l v n hs hn hl
      rw [show r.left = .expr l v from Sym.n.inj hs] at hexpr hleft
      have hside : l ≠ .leftSide := bne_iff_ne.1 (Bool.and_eq_true _ _ ▸ hexpr).1
      have htight : l.isTight = false := hleft
      simp [htight, hside] at hl
    · intro _ hfine
      refine restores_of_loose listed hleft line below horderly fun d hd => ?_
      have hmem : d.symbol ∈ r.right := by
        rw [← spells]
        exact mem_map_of_mem hd
      refine (ih d hd).own (all_eq_true.1 hown _ hmem) fun x hx => ?_
      cases hvalue : (Derivation.rule r line below).eval.value with
      | node n => exact fine_below horderly hstep hvalue (hfine n hvalue) hd hx
      | token t =>
        have hleft : r.left = .assignmentOperator := by
          by_contra hne
          obtain ⟨n, hn⟩ := horderly.exists_node rfl hne
          cases hvalue.symm.trans hn
        rw [hleft, bne_self_eq_false, Bool.false_or] at hassign
        have hsymbol := all_eq_true.1 hassign _ hmem
        have hsuits := (orderly d hd).suits
        cases hs : d.symbol with
        | n A =>
          rw [hs] at hsymbol
          cases hsymbol
        | t k =>
          rw [hs] at hsuits
          obtain ⟨u, hu, -⟩ := hsuits
          cases hx.symm.trans hu

/-- Tight expressions are derived at the level of their words. -/
theorem Derivation.Rebuilds.tightRule (hshows : ∀ k : Kind, k.isLoose → shows k) (hstep : r.isStep = false)
    (hleft : r.left.isTight) (ih : ∀ d ∈ below, d.Rebuilds shows) :
    (Derivation.rule r line below).Rebuilds shows := by
  have hlisted : r ∈ rules := by
    cases h with
    | rule listed _ _ _ => exact listed
  have hsettled {n : Node} (hn : (Derivation.rule r line below).eval.value = .node n) : Settled shows n :=
    settled_of_tightRule hshows (tightRule_of_mem hlisted hleft hstep) h ih hn
  constructor
  · intro l v n _ hn hevery t ht
    obtain ⟨t', ht', hmet⟩ := hsettled hn
    obtain rfl : t' = t := Option.some.inj (ht'.symm.trans ht)
    exact hmet hevery
  · intro l v n _ hn _ hnone
    obtain ⟨t', ht', -⟩ := hsettled hn
    rw [hnone] at ht'
    cases ht'
  · intro hown
    have hnot : (Sym.n r.left).isOwn = false := by
      generalize r.left = A at hleft
      cases A with
      | expr l v => simpa [Sym.isOwn, Nonterminal.isTight] using hleft
      | _ => cases hleft
    rw [symbol, hnot] at hown
    cases hown

end

/-- The derivation of a restorable tree is built again from the words of the tree. -/
theorem Derivation.Orderly.rebuilds (hshows : ∀ k : Kind, k.isLoose → shows k) {d : Derivation}
    (h : d.Orderly) : d.Rebuilds shows := by
  induction h with
  | @token t genuine =>
    refine ⟨fun l v n hs => (by cases hs), fun l v n hs => (by cases hs), fun _ _ => ?_⟩
    apply own_of_closed rfl (Demand.met_token rfl) _ rfl
    cases hk : t.kind.text?.isSome with
    | true => rw [wording_word rfl hk, Token.word_of_text? genuine hk]
    | false =>
      rw [wording, symbol, Sym.signs, hk]
      rfl
  | @rule r line below listed spells orderly chain ih =>
    have h : (Derivation.rule r line below).Orderly := .rule listed spells orderly chain
    cases hstep : r.isStep with
    | true =>
      obtain ⟨l, v, l', v', rfl⟩ := Rule.exists_step hstep
      obtain ⟨d, rfl, hd⟩ := map_eq_singleton_iff.1 spells
      exact .step listed h hd (ih d (by simp))
    | false =>
      cases hleft : r.left.isTight with
      | true => exact .tightRule h hshows hstep hleft ih
      | false => exact .loose h hstep hleft ih

end Grammar

open Grammar in
/-- A text with the words of a tree is parsed, and gives the tree up to lines and lost parentheses. -/
theorem parse_of_words {shows : Kind → Bool} (hshows : ∀ k : Kind, k.isLoose → shows k) {text : String}
    {tree : Node} {p : Parser} (h : parse text = (.ok tree, p)) (hrestorable : tree.every (Node.isRestorable shows))
    {out : String} (hout : SplitsInto out (tree.words shows)) :
    ∃ tree' p', parse out = (.ok tree', p') ∧ tree'.strip shows = tree.strip shows := by
  obtain ⟨d, horderly, hsymbol, hvalue⟩ := parse_orderly h
  have hbare : tree.isBare shows = false := not_bare_of_takes rfl (parse_formed h) shows
  have hmet := (horderly.rebuilds hshows).own (by rw [hsymbol]; rfl) fun n hn => by
    cases hvalue.symm.trans hn
    rw [hsymbol]
    exact .of_not_bare hrestorable hbare rfl
  obtain ⟨d', hd'⟩ := hmet
  have hwords : (tokenize out).1.map Token.word = d'.tokens.map Token.word := by
    rw [hd'.words]
    exact hout.1.trans (Derivation.wording_node (by rw [hsymbol]; rfl) hvalue).symm
  obtain ⟨tree', p', hparse, hstrip⟩ := parse_of_preferred (strip_congruence shows) (hd'.apt.preferred nofun)
    (hd'.symbol.trans hsymbol) hwords hout.2
  refine ⟨tree', p', hparse, ?_⟩
  have hvalues := hstrip.trans hd'.value
  rw [Derivation.demand, hvalue] at hvalues
  exact Value.node.inj hvalues

end JsMinify
