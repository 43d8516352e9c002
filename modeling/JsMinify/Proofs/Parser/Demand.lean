import JsMinify.Proofs.Node.Restorable
import JsMinify.Proofs.Parser.Orderly

/-!
# Derivations on demand

A `Demand` asks for a derivation: of a symbol, from some words, with a value up to lines and lost parentheses, and
with nothing contested at its end but what is allowed. Demands are met rule by rule (`Demand.Met.rule`). For
expressions there are two more ways: a tight expression climbs to the looser levels (`Demand.Met.climb`), and
an expression that does not begin as a statement does may stand at the beginning of one (`Demand.Met.unbrace`).
-/

namespace JsMinify

open List

namespace Grammar

variable {d : Derivation} {ws : List Word} {v x : Value} {l l' : Level} {s : Sym} {k : TokenKind} {ends : TokenKind → Bool}

/-- What is asked of a derivation. -/
structure Demand where
  symbol : Sym
  words : List Word
  value : Value
  /-- The tokens that may contest a rule at its end. -/
  ends : TokenKind → Bool

namespace Demand

/-- Nothing is contested at the end. -/
def closed (s : Sym) (ws : List Word) (v : Value) : Demand := ⟨s, ws, v, fun _ => false⟩

/-- Nothing that is allowed at the end is contested by what stands right behind it. -/
def Precedes (x y : Demand) : Prop := ∀ k, y.symbol = .t k → x.ends k = false

variable (shows : Kind → Bool)

/-- The derivation is one that is asked for. -/
structure MetBy (x : Demand) (d : Derivation) : Prop where
  apt : d.Apt
  symbol : d.symbol = x.symbol
  words : d.tokens.map Token.word = x.words
  value : d.eval.value.strip shows = x.value.strip shows
  ends : ∀ k, d.ends k = true → x.ends k = true

/-- There is a derivation as it is asked for. -/
def Met (x : Demand) : Prop := ∃ d, x.MetBy shows d

end Demand

/-! ## The ends of derivations -/

/-- The derivations of the nonterminal may end with a rule that is contested. -/
def Nonterminal.isOpen : Nonterminal → Bool
  | .expr _ .noIn | .varDeclList .noIn | .varDecl .noIn | .initializer .noIn | .exprOpt .noIn
  | .program | .sourceElements | .sourceElementList | .sourceElement | .functionBody | .statement | .ifStatement
  | .iteration | .withStatement | .labelled | .caseClausesOpt | .caseClauses | .caseClause | .defaultClause => true
  | _ => false

def Sym.isOpen : Sym → Bool
  | .t _ => false
  | .n A => A.isOpen

theorem rules_open : ∀ r ∈ rules, r.left.isOpen = false →
    r.contested = none ∧ ∀ s ∈ r.right.getLast?, s.isOpen = false := by decide +kernel

theorem Derivation.Valid.ends_eq_false (h : d.Valid) (hs : d.symbol.isOpen = false) (k : TokenKind) : d.ends k = false := by
  induction h with
  | token t => rfl
  | @rule r line below listed spells _ ih =>
    obtain ⟨hnone, hopen⟩ := rules_open r listed hs
    rw [ends, hnone, endsAll_eq]
    cases hlast : below.getLast? with
    | none => rfl
    | some d =>
      have hd : d.symbol.isOpen = false := hopen _ (by rw [← spells, getLast?_map, hlast]; rfl)
      exact ih d (mem_of_getLast? hlast) hd

namespace Demand

variable {shows : Kind → Bool} {t : Token} {r : Rule} {ss : List Sym} {vs : List Value}

theorem Met.close {x : Demand} (h : x.Met shows) (hs : x.symbol.isOpen = false) :
    (closed x.symbol x.words x.value).Met shows := by
  obtain ⟨d, hd⟩ := h
  refine ⟨d, hd.apt, hd.symbol, hd.words, hd.value, fun k hk => ?_⟩
  rw [hd.apt.valid.ends_eq_false (by rw [hd.symbol]; exact hs)] at hk
  cases hk

theorem Met.relax (h : (closed s ws v).Met shows) (ends : TokenKind → Bool) : Met shows ⟨s, ws, v, ends⟩ := by
  obtain ⟨d, hd⟩ := h
  exact ⟨d, hd.apt, hd.symbol, hd.words, hd.value, fun k hk => by cases hd.ends k hk⟩

theorem met_token (hk : t.kind = k) : (closed (.t k) [t.word] (.token t)).Met shows :=
  ⟨.token t, .token t, congrArg Sym.t hk, rfl, rfl, fun _ h => by cases h⟩

/-- A token with the word of its kind. -/
theorem met_word (k : TokenKind) (ht : t.word = k.word) : (closed (.t k) [k.word] (.token t)).Met shows := by
  rw [← ht]
  exact met_token (congrArg Prod.fst ht)

/-! ## Rules -/

theorem exists_met {xs : List Demand} (h : ∀ x ∈ xs, x.Met shows) :
    ∃ ds, List.Forall₂ (fun x d => x.MetBy shows d) xs ds := by
  induction xs with
  | nil => exact ⟨[], .nil⟩
  | cons x xs ih =>
    obtain ⟨⟨d, hd⟩, hxs⟩ := forall_mem_cons.1 h
    obtain ⟨ds, hds⟩ := ih hxs
    exact ⟨d :: ds, .cons hd hds⟩

section

variable {xs : List Demand} {ds : List Derivation} (h : List.Forall₂ (fun x d => x.MetBy shows d) xs ds)

include h

theorem symbols_eq : ds.map Derivation.symbol = xs.map (·.symbol) := by
  induction h with
  | nil => rfl
  | cons hd _ ih => rw [map_cons, map_cons, hd.symbol, ih]

theorem words_eq : (Derivation.tokensAll ds).map Token.word = xs.flatMap (·.words) := by
  induction h with
  | nil => rfl
  | cons hd _ ih => rw [Derivation.tokensAll, map_append, hd.words, ih, flatMap_cons]

theorem values_eq : List.Forall₂ (fun i j => i.value.strip shows = j.value.strip shows) (Derivation.evalAll ds)
      (xs.map fun x => (⟨x.value, 0⟩ : Item)) := by
  induction h with
  | nil => exact .nil
  | cons hd _ ih => exact .cons hd.value ih

theorem all_apt : ∀ d ∈ ds, d.Apt := by
  induction h with
  | nil => simp
  | cons hd _ ih => exact forall_mem_cons.2 ⟨hd.apt, ih⟩

theorem chain_of_precedes (hchain : xs.IsChain Precedes) : ds.IsChain Derivation.Precedes := by
  induction h with
  | nil => exact .nil
  | @cons x d xs ds hd hds ih =>
    rw [isChain_cons] at hchain ⊢
    refine ⟨fun e he t ht => ?_, ih hchain.2⟩
    cases hds with
    | nil => cases he
    | @cons y e' _ _ hy _ =>
      obtain rfl : e' = e := Option.some.inj he
      have hfree := hchain.1 y rfl t.kind (by rw [← hy.symbol, ht]; rfl)
      by_contra hends
      rw [hd.ends t.kind (Bool.not_eq_false _ ▸ hends)] at hfree
      cases hfree

theorem endsAll_le (hk : Derivation.endsAll k ds) : xs.getLast?.any (·.ends k) := by
  rw [Derivation.endsAll_eq] at hk
  induction h with
  | nil => cases hk
  | @cons x d xs ds hd hds ih =>
    cases hds with
    | nil => exact hd.ends k hk
    | cons hy hds' =>
      rw [getLast?_cons_cons] at hk ⊢
      exact ih hk

end

/-- A demand is met by a rule if those for its right side are. -/
theorem Met.rule (listed : r ∈ rules) (xs : List Demand) (hxs : ∀ x ∈ xs, x.Met shows)
    (spells : xs.map (·.symbol) = r.right) (chain : xs.IsChain Precedes) (plain : r.isPicky = false)
    (ends : TokenKind → Bool) (hcontested : ∀ k, r.contested = some k → ends k)
    (hlast : ∀ k, xs.getLast?.any (·.ends k) → ends k) :
    Met shows ⟨.n r.left, xs.flatMap (·.words), r.action.run (xs.map fun x => ⟨x.value, 0⟩), ends⟩ := by
  obtain ⟨ds, hds⟩ := exists_met hxs
  refine ⟨.rule r 0 ds, ?_, rfl, words_eq hds, Action.run_strip shows (values_eq hds) r.action, ?_⟩
  · refine .rule listed ((symbols_eq hds).trans spells) (all_apt hds) (chain_of_precedes hds chain) ?_
    intro hpicky
    rw [plain] at hpicky
    cases hpicky
  · intro k hk
    rw [Derivation.ends, Bool.or_eq_true, beq_iff_eq] at hk
    rcases hk with hk | hk
    · exact hcontested k hk
    · exact hlast k (endsAll_le hds hk)

theorem Met.congr {u : Value} (h : Met shows ⟨s, ws, v, ends⟩) (hv : v.strip shows = u.strip shows) :
    Met shows ⟨s, ws, u, ends⟩ := by
  obtain ⟨d, hd⟩ := h
  exact ⟨d, hd.apt, hd.symbol, hd.words, hd.value.trans hv, hd.ends⟩

/-- A demand that allows nothing to be contested at its end is met by a rule if such demands for its right side
are. -/
theorem Met.closed_rule (shows : Kind → Bool) (listed : r ∈ rules) (xs : List (Sym × List Word × Value))
    (hxs : ∀ x ∈ xs, (closed x.1 x.2.1 x.2.2).Met shows) (spells : xs.map (·.1) = r.right) (plain : r.isPicky = false)
    (hleft : r.left.isOpen = false) (hv : (r.action.run (xs.map fun x => ⟨x.2.2, 0⟩)).strip shows = v.strip shows) :
    (closed (.n r.left) (xs.flatMap (·.2.1)) v).Met shows := by
  let ys := xs.map fun x => closed x.1 x.2.1 x.2.2
  have hmet : Met shows ⟨.n r.left, ys.flatMap (·.words), r.action.run (ys.map fun y => ⟨y.value, 0⟩), fun _ => true⟩ := by
    refine Met.rule listed ys ?_ ?_ ?_ plain _ (fun _ _ => rfl) fun _ _ => rfl
    · intro y hy
      obtain ⟨x, hx, rfl⟩ := mem_map.1 hy
      exact hxs x hx
    · rw [map_map]
      exact spells
    · rw [isChain_map]
      exact (pairwise_of_forall fun _ _ _ _ => rfl).isChain
  rw [flatMap_map, map_map] at hmet
  exact (hmet.congr hv).close hleft

/-- What the symbols of a right side stand for, each derived with nothing contested at its end. -/
inductive Builds (shows : Kind → Bool) : List Sym → List Word → List Value → Prop where
  | nil : Builds shows [] [] []
  | cons {s : Sym} {ws ws' : List Word} {v : Value} {ss : List Sym} {vs : List Value} (first : (closed s ws v).Met shows)
      (rest : Builds shows ss ws' vs) : Builds shows (s :: ss) (ws ++ ws') (v :: vs)

/-- A word stands for itself. -/
theorem Builds.word (k : TokenKind) (h : Builds shows ss ws vs) :
    Builds shows (.t k :: ss) ([k.word] ++ ws) (.token ⟨k, k.word.2, 0, 0⟩ :: vs) :=
  .cons (met_word k rfl) h

theorem Builds.exists_list (h : Builds shows ss ws vs) :
    ∃ xs : List (Sym × List Word × Value), (∀ x ∈ xs, (closed x.1 x.2.1 x.2.2).Met shows) ∧ xs.map (·.1) = ss ∧
      xs.flatMap (·.2.1) = ws ∧ xs.map (·.2.2) = vs := by
  induction h with
  | nil => exact ⟨[], by simp⟩
  | @cons s ws _ v _ _ first _ ih =>
    obtain ⟨xs, hxs, rfl, rfl, rfl⟩ := ih
    exact ⟨(s, ws, v) :: xs, forall_mem_cons.2 ⟨first, hxs⟩, rfl, flatMap_cons, rfl⟩

theorem Met.built (listed : r ∈ rules) (h : Builds shows r.right ws vs)
    (plain : r.isPicky = false) (hleft : r.left.isOpen = false)
    (hv : (r.action.run (vs.map fun v => ⟨v, 0⟩)).strip shows = v.strip shows) : (closed (.n r.left) ws v).Met shows := by
  obtain ⟨xs, hxs, spells, rfl, rfl⟩ := h.exists_list
  rw [map_map] at hv
  exact closed_rule shows listed xs hxs spells plain hleft hv

/-! ## Levels -/

/-- A rule that passes on what a nonterminal stands for. -/
theorem Met.pass {a b : Nonterminal} (listed : (⟨b, [.n a], .pass 0⟩ : Rule) ∈ rules)
    (plain : Rule.isPicky ⟨b, [.n a], .pass 0⟩ = false) (h : Met shows ⟨.n a, ws, v, ends⟩) :
    Met shows ⟨.n b, ws, v, ends⟩ := by
  have hmet := Met.rule listed [⟨.n a, ws, v, ends⟩] (by simpa using h) rfl (.singleton _) plain ends
    (fun k hk => ?_) fun k hk => hk
  · have hwords : [(⟨.n a, ws, v, ends⟩ : Demand)].flatMap (·.words) = ws := by simp
    rw [hwords] at hmet
    exact hmet
  · simp [Rule.contested] at hk

end Demand

/-- The next looser level, which takes all expressions of a level. -/
def Level.above : Level → Option Level
  | .primary => some .member
  | .member => some .creation
  | .creation | .call => some .leftSide
  | .leftSide => some .update
  | .update => some .unary
  | .unary => some .multiplicative
  | .multiplicative => some .additive
  | .additive => some .shift
  | .shift => some .relational
  | .relational => some .equality
  | .equality => some .bitAnd
  | .bitAnd => some .bitXor
  | .bitXor => some .bitOr
  | .bitOr => some .logicalAnd
  | .logicalAnd => some .logicalOr
  | .logicalOr => some .conditional
  | .conditional => some .assignment
  | .assignment => some .comma
  | .comma => none

/-- The level takes all expressions of another one that is at most so many levels tighter. -/
def Level.covers (l' : Level) : Nat → Level → Bool
  | 0, l => l == l'
  | n + 1, l => l == l' || l.above.any (covers l' n)

/-- The levels at which `in` is an operator, or a part of one. -/
def Level.isWide : Level → Bool
  | .primary | .member | .creation | .call | .leftSide | .update | .unary | .multiplicative | .additive | .shift => false
  | _ => true

/-- A level in a variant. Up from the relational operators there is a difference between the plain variant and the
one without `in`. -/
def Level.stair (v : Variant) (l : Level) : Nonterminal :=
  .expr l (if v = .noIn && !l.isWide then .plain else v)

theorem stairs_listed : ∀ l ∈ Level.all, ∀ v ∈ Variant.all, ∀ l' ∈ l.above,
    ⟨l'.stair v, [.n (l.stair v)], .pass 0⟩ ∈ rules := by decide +kernel

theorem above_listed (v : Variant) (h : l.above = some l') : (⟨l'.stair v, [.n (l.stair v)], .pass 0⟩ : Rule) ∈ rules := by
  have hl : l ∈ Level.all := by cases l <;> decide
  exact stairs_listed l hl v (by cases v <;> decide) l' h

namespace Demand

variable {shows : Kind → Bool}

/-- What is derived at a level is derived at all levels that cover it. -/
theorem Met.climb {v : Variant} {n : Nat} (hl : l'.covers n l)
    (h : Met shows ⟨.n (l.stair v), ws, x, ends⟩) : Met shows ⟨.n (l'.stair v), ws, x, ends⟩ := by
  induction n generalizing l with
  | zero =>
    obtain rfl := beq_iff_eq.1 hl
    exact h
  | succ n ih =>
    rw [Level.covers, Bool.or_eq_true] at hl
    rcases hl with hl | hl
    · obtain rfl := beq_iff_eq.1 hl
      exact h
    · obtain ⟨m, hm, hl⟩ := (Option.any_eq_true _ _).1 hl
      exact ih hl (h.pass (above_listed v hm) (by cases v <;> cases m <;> rfl))

end Demand

/-! ## The beginning of a statement -/

/-- The levels of primary expressions, members and calls. -/
def Level.isTight : Level → Bool
  | .primary | .member | .creation | .call => true
  | _ => false

/-- The symbol stands for tight expressions that may begin with a brace. -/
def Sym.isTight : Sym → Bool
  | .n (.expr l .plain) => l.isTight
  | _ => false

/-- The variant of a nonterminal for the beginning of a statement. -/
def Nonterminal.unbraced : Nonterminal → Nonterminal
  | .expr l .plain => .expr l .noBrace
  | A => A

def Sym.unbraced : Sym → Sym
  | .n A => .n A.unbraced
  | s => s

def Rule.unbraced (r : Rule) : Rule := ⟨r.left.unbraced, (r.right.take 1).map Sym.unbraced ++ r.right.drop 1, r.action⟩

/-- A rule for tight expressions has a variant for the beginning of a statement, unless it is for what only stands
there, or never stands there. -/
def Rule.hasTwin (r : Rule) : Bool :=
  !(Sym.n r.left).isTight || r.right == [.n (.expr .primary .noBrace)] && r.left == .expr .primary .plain && r.action == .pass 0 ||
    r.right == [.n .objectLiteral] ||
    rules.contains r.unbraced && r.right.head?.any (fun s => s.isTight || s.unbraced == s) &&
      (!r.unbraced.isPicky || r.right == [.n .functionExpr])

theorem rules_have_twins : ∀ r ∈ rules, r.hasTwin := by decide +kernel

/-- How objects, names and the functions that are shunned begin. -/
def Rule.opensAs (r : Rule) : Bool :=
  (r.left != .objectLiteral || r.right.head? == some (.t .lbrace)) && (r.left != .identifier || r.right == [.t .identifier]) &&
    (r.left != .functionExpr || !r.isShunned || r.right.take 2 == [.t .kwFunction, .n .identifier])

theorem rules_open_as : ∀ r ∈ rules, r.opensAs := by decide +kernel

namespace Derivation

theorem exists_token (h : d.symbol = .t k) : ∃ t, d = .token t ∧ t.kind = k := by
  cases d with
  | token t => exact ⟨t, rfl, Sym.t.inj h⟩
  | rule r line below => cases h

theorem begins_object (h : d.Valid) (hs : d.symbol = .n .objectLiteral) : beginsStatement (d.tokens.map Token.word) := by
  obtain ⟨r, line, below, rfl, listed, hleft, spells, -⟩ := h.exists_rule hs
  have hrule := rules_open_as r listed
  simp only [Rule.opensAs, hleft, ← spells, Bool.and_eq_true, bne_self_eq_false, Bool.false_or, beq_iff_eq,
    head?_map, Option.map_eq_some_iff] at hrule
  obtain ⟨e, he, hsymbol⟩ := hrule.1.1
  obtain ⟨es, rfl⟩ := head?_eq_some_iff.1 he
  obtain ⟨t, rfl, hkind⟩ := exists_token hsymbol
  simp [tokens, tokensAll, Token.word, hkind, beginsStatement]

theorem begins_name (h : d.Valid) (hs : d.symbol = .n .identifier) : ∃ t, d.tokens = [t] ∧ t.kind = .identifier := by
  obtain ⟨r, line, below, rfl, listed, hleft, spells, -⟩ := h.exists_rule hs
  have hrule := rules_open_as r listed
  simp only [Rule.opensAs, hleft, ← spells, Bool.and_eq_true, bne_self_eq_false, Bool.false_or, beq_iff_eq,
    map_eq_singleton_iff] at hrule
  obtain ⟨e, rfl, hsymbol⟩ := hrule.1.2
  obtain ⟨t, rfl, hkind⟩ := exists_token hsymbol
  exact ⟨t, rfl, hkind⟩

theorem begins_function (h : d.Valid) (hs : d.symbol = .n .functionExpr) (hshunned : d.isShunned) :
    beginsStatement (d.tokens.map Token.word) := by
  obtain ⟨r, line, below, rfl, listed, hleft, spells, valid⟩ := h.exists_rule hs
  have hrule := rules_open_as r listed
  have hr : r.isShunned := hshunned
  rw [Rule.opensAs, hleft, hr, ← spells, Bool.and_eq_true] at hrule
  cases below with
  | nil => cases hrule.2
  | cons e below =>
    cases below with
    | nil => simp at hrule
    | cons f below =>
      simp only [map_cons, take_succ_cons, take_zero, bne_self_eq_false, Bool.not_true, Bool.false_or,
        beq_iff_eq, List.cons.injEq, and_true] at hrule
      obtain ⟨t, rfl, hkind⟩ := exists_token hrule.2.1
      obtain ⟨u, hu, hname⟩ := begins_name (valid f (by simp)) hrule.2.2
      simp [tokens, tokensAll, hu, Token.word, hkind, hname, beginsStatement]

theorem isOpen_unbraced (h : s.isTight) : s.unbraced.isOpen = false := by
  cases s with
  | t k => cases h
  | n A =>
    cases A with
    | expr l v =>
      cases v with
      | plain => rfl
      | _ => cases h
    | _ => cases h

/-- A tight expression that does not begin as a statement does can be derived at the beginning of one. -/
theorem Apt.unbrace (h : d.Apt) (hs : d.symbol.isTight) (hwords : beginsStatement (d.tokens.map Token.word) = false) :
    ∃ d' : Derivation, d'.Apt ∧ d'.symbol = d.symbol.unbraced ∧ d'.tokens = d.tokens ∧ d'.eval = d.eval := by
  induction h with
  | token t => cases hs
  | @rule r line below listed spells apt chain kept ih =>
    have htwin := rules_have_twins r listed
    have hleft : (Sym.n r.left).isTight := hs
    simp only [Rule.hasTwin, hleft, Bool.not_true, Bool.false_or, Bool.or_eq_true, Bool.and_eq_true, beq_iff_eq,
      contains_iff_mem] at htwin
    rcases htwin with (⟨⟨hright, hprimary⟩, haction⟩ | hobject) | ⟨⟨htwin, hhead⟩, hpicky⟩
    · rw [hright, map_eq_singleton_iff] at spells
      obtain ⟨e, rfl, he⟩ := spells
      refine ⟨e, apt e (by simp), ?_, ?_, ?_⟩
      · rw [he, symbol, hprimary]
        rfl
      · simp [tokens, tokensAll]
      · rw [eval, evalAll, evalAll, Rule.item, haction]
        rfl
    · rw [hobject, map_eq_singleton_iff] at spells
      obtain ⟨e, rfl, he⟩ := spells
      have hbegins := begins_object (apt e (by simp)).valid he
      rw [tokens, tokensAll, tokensAll, append_nil, hbegins] at hwords
      cases hwords
    · cases below with
      | nil =>
        rw [← spells] at hhead
        cases hhead
      | cons e below =>
        rw [← spells, map_cons, head?_cons, Option.any_some, Bool.or_eq_true, beq_iff_eq] at hhead
        have hfirst : beginsStatement (e.tokens.map Token.word) = false := by
          rw [tokens, tokensAll, map_append] at hwords
          by_contra hnot
          rw [beginsStatement_append (Bool.not_eq_false _ ▸ hnot)] at hwords
          cases hwords
        have hrest : ∀ f ∈ below, f.Apt := fun f hf => apt f (mem_cons_of_mem e hf)
        obtain ⟨e', he', hsymbol, htokens, heval, hprecedes⟩ : ∃ e' : Derivation, e'.Apt ∧ e'.symbol = e.symbol.unbraced ∧
            e'.tokens = e.tokens ∧ e'.eval = e.eval ∧ ∀ f, e.Precedes f → e'.Precedes f := by
          rcases hhead with htight | hsame
          · obtain ⟨e', he', hsymbol, htokens, heval⟩ := ih e mem_cons_self htight hfirst
            have hclosed := he'.valid.ends_eq_false (by rw [hsymbol]; exact isOpen_unbraced htight)
            exact ⟨e', he', hsymbol, htokens, heval, fun f _ t _ => hclosed t.kind⟩
          · exact ⟨e, apt e mem_cons_self, hsame.symm, rfl, rfl, fun f hf => hf⟩
        refine ⟨.rule r.unbraced line (e' :: below), .rule htwin ?_ ?_ ?_ ?_, rfl, ?_, ?_⟩
        · rw [Rule.unbraced, ← spells]
          simp [hsymbol]
        · exact forall_mem_cons.2 ⟨he', hrest⟩
        · rw [isChain_cons] at chain ⊢
          exact ⟨fun f hf => hprecedes f (chain.1 f hf), chain.2⟩
        · intro hp
          rw [hp] at hpicky
          obtain ⟨hfunction, rfl⟩ : e.symbol = .n .functionExpr ∧ below = [] := by
            rw [← spells] at hpicky
            simpa using hpicky
          intro f hf
          obtain rfl := mem_singleton.1 hf
          by_contra hshunned
          have hbegins := begins_function he'.valid (by rw [hsymbol, hfunction]; rfl) (Bool.not_eq_false _ ▸ hshunned)
          rw [htokens, hfirst] at hbegins
          cases hbegins
        · simp only [tokens, tokensAll, htokens]
        · simp only [eval, evalAll, heval]
          rfl

end Derivation

namespace Demand

variable {shows : Kind → Bool}

theorem Met.unbrace (hl : l.isTight) (h : (closed (.n (.expr l .plain)) ws v).Met shows)
    (hws : beginsStatement ws = false) : (closed (.n (.expr l .noBrace)) ws v).Met shows := by
  obtain ⟨d, hd⟩ := h
  have hsymbol : d.symbol = .n (.expr l .plain) := hd.symbol
  obtain ⟨d', hapt, hs, htokens, heval⟩ := hd.apt.unbrace (by rw [hsymbol]; exact hl) (by rw [hd.words]; exact hws)
  rw [hsymbol] at hs
  refine ⟨d', hapt, hs, by rw [htokens]; exact hd.words, by rw [heval]; exact hd.value, fun k hk => ?_⟩
  rw [hapt.valid.ends_eq_false (by rw [hs]; rfl)] at hk
  cases hk

/-- What is derived at a tight level is derived at all levels that cover it, in all variants. -/
theorem Met.settle {t : Level} (ht : t.isTight) {n : Nat} (hl : l.covers n t)
    (h : (closed (.n (.expr t .plain)) ws x).Met shows) (v : Variant) (hv : v = .noBrace → beginsStatement ws = false) :
    (closed (.n (l.stair v)) ws x).Met shows := by
  refine Met.climb hl ?_
  cases v with
  | plain => exact h
  | noIn =>
    have hstair : t.stair .noIn = .expr t .plain := by cases t <;> first | rfl | cases ht
    rw [hstair]
    exact h
  | noBrace => exact h.unbrace ht (hv rfl)

end Demand

end Grammar

end JsMinify
