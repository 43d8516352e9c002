import JsMinify.Proofs.Parser.Derivation
import JsMinify.Proofs.Parser.Follow
import JsMinify.Proofs.Parser.Termination

/-!
# Completeness of the parser

A derivation is `Preferred` if it is valid and makes the choices that the automaton makes: no rule is contested
by the token behind it, and none is shunned by the rule above. `Derivation.Preferred.runs` follows the automaton
through such a derivation, from a state that is ready for it to the state behind its symbol.

The text that is read has the words of the derivation: its tokens may stand in other lines. So the value on the
stack at the end is that of the derivation up to a `Congruence`, a relation that the rules keep. A text that
is split into the words of a preferred derivation of a program is parsed, and its tree is the value of the
derivation in this sense (`parse_of_preferred`).
-/

namespace JsMinify

open List

variable {i m n : Nat} {c : Config} {ts : List Token} {r : Grammar.Rule} {d : Grammar.Derivation} {ds : List Grammar.Derivation} {text : String}
  {R : Grammar.Value → Grammar.Value → Prop}

def Token.word (t : Token) : TokenKind × String := (t.kind, t.text)

namespace Grammar

/-- The kind of the first of some tokens, or what comes after them. -/
def headOf (ts : List Token) (next : Option TokenKind) : Option TokenKind := (ts.head?.map (·.kind)).or next

theorem headOf_append (ts us : List Token) (next : Option TokenKind) :
    headOf (ts ++ us) next = headOf ts (headOf us next) := by
  cases ts <;> rfl

theorem headOf_congr {us : List Token} (h : ts.map Token.word = us.map Token.word) (next : Option TokenKind) :
    headOf ts next = headOf us next := by
  cases ts with
  | nil =>
    cases us with
    | nil => rfl
    | cons u us => cases h
  | cons t ts =>
    cases us with
    | nil => cases h
    | cons u us => exact congrArg some (Prod.mk.inj (List.cons.inj h).1).1

namespace Derivation

/-- The rule on top is one that is shunned in some places. -/
def isShunned : Derivation → Bool
  | .token _ => false
  | .rule r _ _ => r.isShunned

mutual
/-- The derivation is valid and makes the choices of the automaton, where `next` comes after it. -/
def Preferred (next : Option TokenKind) : Derivation → Prop
  | .token _ => True
  | .rule r _ below =>
    r ∈ rules ∧ below.map symbol = r.right ∧ (∀ k, r.contested = some k → next ≠ some k) ∧
      (r.isPicky = true → ∀ d ∈ below, d.isShunned = false) ∧ PreferredAll next below

/-- The derivations are valid and make the choices of the automaton, where `next` comes after them. -/
def PreferredAll (next : Option TokenKind) : List Derivation → Prop
  | [] => True
  | d :: ds => Preferred (headOf (tokensAll ds) next) d ∧ PreferredAll next ds
end

mutual
theorem Preferred.valid {next : Option TokenKind} : {d : Derivation} → d.Preferred next → d.Valid
  | .token t, _ => .token t
  | .rule _ _ _, ⟨listed, spells, _, _, parts⟩ => .rule listed spells (PreferredAll.valid parts)

theorem PreferredAll.valid {next : Option TokenKind} : {ds : List Derivation} → PreferredAll next ds → ∀ d ∈ ds, d.Valid
  | [], _ => nofun
  | _ :: _, ⟨first, rest⟩ => forall_mem_cons.2 ⟨Preferred.valid first, PreferredAll.valid rest⟩
end

end Derivation

/-! ## What a derivation begins with -/

/-- The symbol may have no tokens. -/
def Sym.isNullable : Sym → Bool
  | .t _ => false
  | .n A => A.isNullable

theorem begins_closed : ∀ r ∈ rules, subset (begin r.right 0) r.left.begins ∧
    (r.right.all Sym.isNullable → r.left.isNullable) := by decide +kernel

theorem begin_of_nullable {syms : List Sym} (h : syms.all Sym.isNullable) {b : Nat} (hb : m.testBit b) :
    (begin syms m).testBit b := by
  induction syms with
  | nil => exact hb
  | cons s syms ih =>
    rw [all_cons, Bool.and_eq_true] at h
    cases s with
    | t k => cases h.1
    | n A =>
      have hA : A.isNullable := h.1
      rw [begin, if_pos hA, Nat.testBit_or, ih h.2, Bool.or_true]

namespace Derivation

/-- The symbol of the derivation may begin with its first token, or have none. -/
structure Begins (d : Derivation) : Prop where
  first : ∀ t ts, d.tokens = t :: ts → (begin [d.symbol] 0).testBit (aheadBit (some t.kind)) = true
  none : d.tokens = [] → d.symbol.isNullable = true

theorem Begins.all (h : ∀ d ∈ ds, d.Begins) :
    (∀ t ts, tokensAll ds = t :: ts → (begin (ds.map symbol) 0).testBit (aheadBit (some t.kind))) ∧
      (tokensAll ds = [] → (ds.map symbol).all Sym.isNullable) := by
  induction ds with
  | nil =>
    constructor
    · intro t ts ht
      cases ht
    · exact fun _ => rfl
  | cons d ds ih =>
    obtain ⟨hd, hds⟩ := forall_mem_cons.1 h
    obtain ⟨hfirst, hnone⟩ := ih hds
    constructor
    · intro t ts ht
      rw [tokensAll] at ht
      cases htokens : d.tokens with
      | nil =>
        rw [htokens, nil_append] at ht
        have hnull := hd.none htokens
        rw [map_cons]
        cases hs : d.symbol with
        | t k =>
          rw [hs] at hnull
          cases hnull
        | n A =>
          rw [hs] at hnull
          have hA : A.isNullable := hnull
          rw [begin, if_pos hA, Nat.testBit_or, hfirst t ts ht, Bool.or_true]
      | cons u us =>
        rw [htokens, cons_append] at ht
        obtain ⟨rfl, -⟩ := List.cons.inj ht
        have hu := hd.first u us htokens
        rw [map_cons]
        cases hs : d.symbol with
        | t k =>
          rw [hs] at hu
          exact hu
        | n A =>
          rw [hs] at hu
          rw [begin, Nat.testBit_or, Bool.or_eq_true] at hu ⊢
          refine hu.imp_right fun hu => ?_
          split at hu
          · simp [begin] at hu
          · simp at hu
    · intro ht
      obtain ⟨htokens, hrest⟩ := append_eq_nil_iff.1 ht
      rw [map_cons, all_cons, hd.none htokens, hnone hrest]
      rfl

theorem Valid.begins (h : d.Valid) : d.Begins := by
  induction h with
  | token t =>
    refine ⟨fun u us hu => ?_, fun hu => by cases hu⟩
    obtain ⟨rfl, -⟩ := List.cons.inj hu
    rw [symbol, begin, testBit_kind]
    exact decide_eq_true rfl
  | @rule r line below listed spells _ ih =>
    obtain ⟨hfirst, hnone⟩ := Begins.all ih
    have hclosed := begins_closed r listed
    rw [spells] at hfirst hnone
    constructor
    · intro t ts ht
      rw [symbol, begin, Nat.testBit_or, testBit_of_subset hclosed.1 (hfirst t ts ht), Bool.true_or]
    · intro ht
      exact hclosed.2 (hnone ht)

/-- What comes next is among what the symbols begin with. -/
theorem testBit_begin (h : ∀ d ∈ ds, d.Valid) (next : Option TokenKind) :
    (begin (ds.map symbol) (1 <<< aheadBit next)).testBit (aheadBit (headOf (tokensAll ds) next)) := by
  obtain ⟨hfirst, hnone⟩ := Begins.all fun d hd => (h d hd).begins
  cases ht : tokensAll ds with
  | nil => exact begin_of_nullable (hnone ht) (by rw [testBit_one_shiftLeft]; exact decide_eq_true rfl)
  | cons t ts => exact Table.begin_mono (fun b hb => by simp at hb) _ (hfirst t ts ht)

end Derivation

/-! ## Reading -/

end Grammar

/-- The lexer hands out these tokens, and then the end of the text. -/
def Lexer.Yields : Lexer → List Token → Prop
  | l, [] => ∃ l', l.token = (.ok none, l')
  | l, t :: ts => ∃ l', l.token = (.ok (some t), l') ∧ Yields l' ts

theorem Lexer.yields_of_drainFrom {fuel : Nat} {l : Lexer} (hl : l.pushed = []) (hfuel : l.rest.length < fuel)
    (h : (drainFrom fuel l).2.1 = .ok ()) : l.Yields (drainFrom fuel l).1 := by
  induction fuel generalizing l with
  | zero => omega
  | succ fuel ih =>
    rw [drainFrom] at h ⊢
    split at h
    · cases h
    · next l' htoken => exact ⟨l', htoken⟩
    · next t l' htoken =>
      have hshort := (token_read hl htoken).shorter rfl
      exact ⟨l', htoken, ih (token_pushed_nil hl htoken) (by omega) h⟩

theorem Lexer.yields_of_tokenize (h : (tokenize text).2.1 = .ok ()) : (({} : Lexer).input text).Yields (tokenize text).1 :=
  yields_of_drainFrom rfl (Nat.lt_succ_of_le (Nat.le_add_left _ _)) h

open Grammar

namespace Config

/-- The tokens still to be shifted are these. -/
inductive Feeds (c : Config) : List Token → Prop where
  | unread {ts : List Token} (ahead : c.ahead = none) (yields : c.parser.lexer.Yields ts) : Feeds c ts
  | held {t : Token} {ts : List Token} (ahead : c.ahead = some (some t)) (yields : c.parser.lexer.Yields ts) :
      Feeds c (t :: ts)
  | ended (ahead : c.ahead = some none) : Feeds c []

theorem After.trans {c' c'' : Config} (h : After n c c') (h' : After m c' c'') : After (n + m) c c'' := by
  induction h with
  | zero =>
    rw [Nat.zero_add]
    exact h'
  | next first _ ih =>
    rw [Nat.succ_add]
    exact .next first (ih h')

/-- Where the tables do not force a reduction, what comes next is read. -/
theorem Feeds.look (h : Feeds c ts) (free : Table.forced? c.state = none) :
    ∃ n c', After n c c' ∧ c'.stack = c.stack ∧ c'.ahead = some ts.head? ∧ Feeds c' ts := by
  cases h with
  | @unread _ ahead yields =>
    have hstep : c.step = c.read := by simp only [step, free, ahead]
    cases ts with
    | nil =>
      obtain ⟨l, htoken⟩ := yields
      have hread : c.step = .next { c with parser := { c.parser with lexer := l }, ahead := some none } := by
        rw [hstep, read, htoken]
      exact ⟨1, _, .next hread (.zero _), rfl, rfl, .ended rfl⟩
    | cons t ts =>
      obtain ⟨l, htoken, yields⟩ := yields
      have hread : c.step = .next { c with parser := { c.parser with lexer := l }, ahead := some (some t) } := by
        rw [hstep, read, htoken]
      exact ⟨1, _, .next hread (.zero _), rfl, rfl, .held rfl yields⟩
  | held ahead yields => exact ⟨0, c, .zero c, rfl, ahead, .held ahead yields⟩
  | ended ahead => exact ⟨0, c, .zero c, rfl, ahead, .ended ahead⟩

theorem Feeds.shift {t : Token} (h : Feeds c (t :: ts)) (free : Table.forced? (stateOf c.stack) = none) {p : State}
    (entry : Table.move (stateOf c.stack) (some t.kind) = some (.shift p)) :
    ∃ n c', After n c c' ∧ c'.stack = ⟨p, .t t.kind, ⟨.token t, t.line⟩⟩ :: c.stack ∧ Feeds c' ts := by
  rw [← state_eq] at free entry
  obtain ⟨n, c₁, hafter, hstack, hahead, hfeeds⟩ := h.look free
  have hstate : c₁.state = c.state := by rw [state_eq, state_eq, hstack]
  rw [← hstate] at free entry
  have hstep : c₁.step = .next { c₁ with stack := ⟨p, .t t.kind, ⟨.token t, t.line⟩⟩ :: c₁.stack, ahead := none } := by
    simp only [step, free, hahead, head?_cons, Option.map_some, entry, Config.shift]
  refine ⟨n + 1, _, hafter.trans (.next hstep (.zero _)), by rw [← hstack], ?_⟩
  cases hfeeds with
  | unread ahead _ => rw [hahead] at ahead; cases ahead
  | held _ yields => exact .unread rfl yields

/-- A reduction that the tables ask for puts the left side of the rule in place of its right side. -/
theorem Feeds.reduce (h : Feeds c ts) (hr : Table.rule? i = some r) (why : Table.forced? (stateOf c.stack) = some i ∨
      Table.forced? (stateOf c.stack) = none ∧ Table.move (stateOf c.stack) (headOf ts none) = some (.reduce i))
    {fs rest : List Frame} (hstack : c.stack = fs.reverse ++ rest) (hfs : fs.map (·.sym) = r.right) :
    ∃ n c' line, After n c c' ∧ Feeds c' ts ∧
      c'.stack = ⟨Table.goto (stateOf rest) r.left, .n r.left, r.item line (fs.map (·.item))⟩ :: rest := by
  obtain ⟨n, c₁, hafter, hsame, why, hfeeds⟩ : ∃ n c₁, After n c c₁ ∧ c₁.stack = c.stack ∧ c₁.Reduces i ∧ Feeds c₁ ts := by
    rw [← state_eq] at why
    rcases why with forced | ⟨free, entry⟩
    · exact ⟨0, c, .zero c, rfl, .inl forced, h⟩
    · obtain ⟨n, c₁, hafter, hsame, hahead, hfeeds⟩ := h.look free
      have hstate : c₁.state = c.state := by rw [state_eq, state_eq, hsame]
      refine ⟨n, c₁, hafter, hsame, .inr ⟨by rw [hstate]; exact free, _, hahead, ?_⟩, hfeeds⟩
      rw [hstate, ← entry]
      cases ts <;> rfl
  have hlen : fs.reverse.length = r.right.length := by rw [length_reverse, ← hfs, length_map]
  have htake : c₁.stack.take r.right.length = fs.reverse := by
    rw [hsame, hstack, ← hlen, take_left]
  have hdrop : c₁.stack.drop r.right.length = rest := by
    rw [hsame, hstack, ← hlen, drop_left]
  have handle : c₁.Handle r := by
    rw [Handle, htake, reverse_reverse]
    exact hfs
  have hstep : c₁.step = .next (c₁.reduced r) := by
    have hreduce : c₁.step = c₁.reduce i := by
      rcases why with forced | ⟨free, look, ahead, entry⟩
      · simp only [step, forced]
      · simp only [step, free, ahead, entry]
    rw [hreduce]
    rcases reduce_cases c₁ i with ⟨r', hr', -, he⟩ | ⟨-, hnot⟩
    · cases hr.symm.trans hr'
      exact he
    · exact absurd handle (hnot r hr)
  refine ⟨n + 1, _, c₁.parser.lexer.line, hafter.trans (.next hstep (.zero _)), ?_, ?_⟩
  · cases hfeeds with
    | unread ahead yields => exact .unread ahead yields
    | held ahead yields => exact .held ahead yields
    | ended ahead => exact .ended ahead
  · rewrite [reduced, htake, hdrop, reverse_reverse, state_eq]
    rfl

end Config

/-! ## Runs -/

namespace Grammar

/-- A relation between values that holds between tokens with the same words and is kept by the rules. -/
structure Congruence (R : Value → Value → Prop) : Prop where
  token : ∀ t u : Token, t.word = u.word → R (.token t) (.token u)
  rule : ∀ r ∈ rules, ∀ items items' : List Item,
    List.Forall₂ (fun i j => R i.value j.value) items items' → R (r.action.run items) (r.action.run items')

theorem Table.exists_rule? (h : r ∈ rules) : ∃ i, rule? i = some r := by
  obtain ⟨i, hi⟩ := mem_iff_getElem?.1 h
  exact ⟨i, by rw [rule?_eq, hi]⟩

namespace Derivation

/-- In the state `q` the automaton can begin with the derivation, and is in the state `p` behind it. -/
def Ready (q : State) (next : Option TokenKind) (p : State) : Derivation → Prop
  | .token t => Table.forced? q = none ∧ Table.move q (some t.kind) = some (.shift p)
  | .rule r _ _ =>
    p = Table.goto q r.left ∧ ∃ i, Table.rule? i = some r ∧ (Table.expects q i r 0).testBit (aheadBit next) = true

/-- A rule goes on over the symbol of a derivation. -/
theorem ready_of_expects {q : State} (hq : q < Table.stateCount) {k : Nat} (hr : Table.rule? i = some r)
    {next : Option TokenKind} (h : (Table.expects q i r k).testBit (aheadBit next)) (hd : d.Valid)
    (hds : ∀ e ∈ ds, e.Valid) (hright : r.right.drop k = d.symbol :: ds.map symbol)
    (hkept : r.isPicky → d.isShunned = false) : ∃ p, d.Ready q (headOf (tokensAll ds) next) p ∧
      (Table.expects p i r (k + 1)).testBit (aheadBit next) := by
  cases hd with
  | token t =>
    obtain ⟨hforced, p, hmove, hp⟩ := Table.expects_shift hq hr h hright
    exact ⟨p, ⟨hforced, hmove⟩, hp⟩
  | @rule r' line below listed spells _ =>
    obtain ⟨j, hj⟩ := Table.exists_rule? listed
    refine ⟨_, ⟨rfl, j, hj, ?_⟩, Table.expects_goto hq hr h hright⟩
    refine Table.expects_begin hq hr h hright hj rfl ?_ (testBit_begin hds next)
    rintro ⟨hpicky, hshunned⟩
    have hfree : r'.isShunned = false := hkept hpicky
    rw [hshunned] at hfree
    cases hfree

-- The run follows the derivation: over a rule it goes through the derivations below from left to right, with the
-- rule under way, and then reduces it.
mutual
/-- The automaton runs through a preferred derivation, from a state that is ready for it. -/
theorem Preferred.runs (hR : Congruence R) : (d : Derivation) → {next : Option TokenKind} → d.Preferred next →
    ∀ (c : Config) (ts rest : List Token) (p : State), Config.Stacked c.stack →
    ts.map Token.word = d.tokens.map Token.word → headOf rest none = next → c.Feeds (ts ++ rest) →
    d.Ready (Config.stateOf c.stack) next p →
    ∃ n c' item, Config.After n c c' ∧ c'.stack = ⟨p, d.symbol, item⟩ :: c.stack ∧ R item.value d.eval.value ∧ c'.Feeds rest
  | .token t, next, _ => by
    intro c ts rest p _ hwords _ hfeeds ⟨hforced, hmove⟩
    obtain ⟨u, us, rfl, hu, hus⟩ := map_eq_cons_iff.1 hwords
    obtain rfl := map_eq_nil_iff.1 hus
    have hkind : u.kind = t.kind := congrArg Prod.fst hu
    rw [← hkind] at hmove
    obtain ⟨n, c', hafter, hstack, hfeeds⟩ := Config.Feeds.shift hfeeds hforced hmove
    refine ⟨n, c', ⟨.token u, u.line⟩, hafter, ?_, hR.token u t hu, hfeeds⟩
    rw [hstack, symbol, hkind]
  | .rule r line below, next, ⟨listed, spells, hfree, hkept, parts⟩ => by
    intro c ts rest p hstacked hwords hrest hfeeds ⟨hp, i, hr, hexpects⟩
    obtain ⟨n, c₁, fs, hafter, hstack, hsyms, hvalues, hfeeds, hexpects⟩ :=
      PreferredAll.runs hR below parts i 0 r c ts rest hstacked hr (by rw [drop_zero, spells]) hkept hwords
        hrest hfeeds hexpects
    have hstacked₁ := hafter.stacked hstacked
    have hdone : r.right.drop (0 + below.length) = [] := by
      rw [Nat.zero_add, ← spells, ← length_map (f := symbol), drop_length]
    have hreduce := Table.expects_reduce hstacked₁.state_lt hr hexpects hdone hfree
    rw [← hrest] at hreduce
    obtain ⟨m, c₂, line', hafter₂, hfeeds₂, hstack₂⟩ := hfeeds.reduce hr hreduce hstack (hsyms.trans spells)
    refine ⟨n + m, c₂, _, hafter.trans hafter₂, by rw [hstack₂, hp]; rfl, ?_, hfeeds₂⟩
    exact hR.rule r listed _ _ hvalues

/-- The automaton runs through preferred derivations of the symbols that a rule under way goes on with. -/
theorem PreferredAll.runs (hR : Congruence R) : (ds : List Derivation) → {next : Option TokenKind} → PreferredAll next ds →
    ∀ (i k : Nat) (r : Rule) (c : Config) (ts rest : List Token), Config.Stacked c.stack →
    Table.rule? i = some r → r.right.drop k = ds.map symbol →
    (r.isPicky → ∀ d ∈ ds, d.isShunned = false) →
    ts.map Token.word = (tokensAll ds).map Token.word → headOf rest none = next → c.Feeds (ts ++ rest) →
    (Table.expects (Config.stateOf c.stack) i r k).testBit (aheadBit next) →
    ∃ n c', ∃ fs : List Frame, Config.After n c c' ∧ c'.stack = fs.reverse ++ c.stack ∧ fs.map (·.sym) = ds.map symbol ∧
      List.Forall₂ (fun i j => R i.value j.value) (fs.map (·.item)) (evalAll ds) ∧ c'.Feeds rest ∧
      (Table.expects (Config.stateOf c'.stack) i r (k + ds.length)).testBit (aheadBit next)
  | [], next, _ => by
    intro i k r c ts rest _ _ _ _ hwords _ hfeeds hexpects
    obtain rfl := map_eq_nil_iff.1 hwords
    exact ⟨0, c, [], .zero c, rfl, rfl, .nil, hfeeds, hexpects⟩
  | d :: ds, next, ⟨first, later⟩ => by
    intro i k r c ts rest hstacked hr hright hkept hwords hrest hfeeds hexpects
    rw [tokensAll, map_append] at hwords
    obtain ⟨ts₁, ts₂, rfl, hwords₁, hwords₂⟩ := map_eq_append_iff.1 hwords
    obtain ⟨p, hready, hexpects₁⟩ := ready_of_expects hstacked.state_lt hr hexpects (Preferred.valid first)
      (PreferredAll.valid later) hright fun hp => hkept hp d mem_cons_self
    rw [append_assoc] at hfeeds
    have hahead : headOf (ts₂ ++ rest) none = headOf (tokensAll ds) next := by
      rw [headOf_append, hrest, headOf_congr hwords₂]
    obtain ⟨n, c₁, item, hafter, hstack, hvalue, hfeeds₁⟩ :=
      Preferred.runs hR d first c ts₁ (ts₂ ++ rest) p hstacked hwords₁ hahead hfeeds hready
    have hstacked₁ := hafter.stacked hstacked
    have hright₁ : r.right.drop (k + 1) = ds.map symbol := by
      rw [← drop_drop, hright]
      rfl
    have hstate : Config.stateOf c₁.stack = p := by rw [hstack]; rfl
    rw [← hstate] at hexpects₁
    obtain ⟨m, c₂, fs, hafter₂, hstack₂, hsyms, hvalues, hfeeds₂, hexpects₂⟩ :=
      PreferredAll.runs hR ds later i (k + 1) r c₁ ts₂ rest hstacked₁ hr hright₁
        (fun hp e he => hkept hp e (mem_cons_of_mem _ he)) hwords₂ hrest hfeeds₁ hexpects₁
    refine ⟨n + m, c₂, ⟨p, d.symbol, item⟩ :: fs, hafter.trans hafter₂, ?_, ?_, .cons hvalue hvalues, hfeeds₂, ?_⟩
    · rw [hstack₂, hstack]
      simp
    · rw [map_cons, hsyms]
      rfl
    · rw [length_cons, Nat.add_comm ds.length 1, ← Nat.add_assoc]
      exact hexpects₂
end

end Derivation

end Grammar

/-! ## Whole texts -/

namespace Config

/-- A run ends at one place only. -/
theorem After.unique {c₁ c₂ : Config} (h₁ : After n c c₁) (h₂ : After m c c₂) (last₁ : ∀ c', c₁.step ≠ .next c')
    (last₂ : ∀ c', c₂.step ≠ .next c') : c₁ = c₂ := by
  induction h₁ generalizing m with
  | zero =>
    cases h₂ with
    | zero => rfl
    | next first _ => exact absurd first (last₁ _)
  | next first _ ih =>
    cases h₂ with
    | zero => exact absurd first (last₂ _)
    | next first' rest =>
      obtain rfl := Progress.next.inj (first.symm.trans first')
      exact ih rest last₁

end Config

/-- A run that is accepted is that of the parser. -/
theorem parse_of_accepted (h : Config.After n (Config.start text) c) {tree : Node} {p : Parser}
    (hs : c.step = .accepted tree p) : parse text = (.ok tree, p) := by
  obtain ⟨m, c', hafter, hresult⟩ := run_ends text
  have hlast : ∀ d, c'.step ≠ .next d := by
    intro d hd
    rw [hd] at hresult
    cases hresult
  obtain rfl := h.unique hafter (fun d hd => by rw [hs] at hd; cases hd) hlast
  rw [hs] at hresult
  exact (Option.some.inj hresult).symm

theorem Grammar.Table.expects_program (hi : rule? i = some r) (h : r.left = .program) :
    (expects 0 i r 0).testBit (aheadBit none) := by
  have hrule := mem_rulesFor hi
  rw [h] at hrule
  obtain rfl : i = 1 := mem_singleton.1 hrule
  have hstart : (rule? 1).all (fun r => (expects 0 1 r 0).testBit (aheadBit none)) := by decide +kernel
  simpa [hi] using hstart

theorem goto_program : Table.goto 0 .program = Table.acceptState := by decide +kernel

theorem accept_free : Table.forced? Table.acceptState = none ∧ Table.move Table.acceptState none = some .accept := by
  decide +kernel

/-- A text that is split into the words of a preferred derivation of a program is parsed, and its tree is the value
of the derivation. -/
theorem parse_of_preferred (hR : Congruence R) (hd : d.Preferred none) (hsymbol : d.symbol = .n .program)
    (hwords : (tokenize text).1.map Token.word = d.tokens.map Token.word) (hok : (tokenize text).2.1 = .ok ()) :
    ∃ tree p, parse text = (.ok tree, p) ∧ R (.node tree) d.eval.value := by
  have hready : d.Ready 0 none (Table.goto 0 .program) := by
    cases d with
    | token t => cases hsymbol
    | rule r line below =>
      have hleft : r.left = .program := Sym.n.inj hsymbol
      obtain ⟨i, hi⟩ := Table.exists_rule? hd.1
      exact ⟨by rw [hleft], i, hi, Table.expects_program hi hleft⟩
  have hfeeds : (Config.start text).Feeds ((tokenize text).1 ++ []) := by
    rw [append_nil]
    exact .unread rfl (Lexer.yields_of_tokenize hok)
  obtain ⟨n, c, item, hafter, hstack, hvalue, hfeeds⟩ := hd.runs hR d _ _ [] _ .nil hwords rfl hfeeds hready
  have hstacked := hafter.stacked .nil
  have hstate : c.state = Table.acceptState := by
    rw [Config.state_eq, hstack]
    exact goto_program
  have free : Table.forced? c.state = none := by rw [hstate]; exact accept_free.1
  obtain ⟨m, c₁, hafter₁, hsame, hahead, -⟩ := hfeeds.look free
  have hstate₁ : c₁.state = Table.acceptState := by rw [Config.state_eq, hsame, ← Config.state_eq, hstate]
  have hstep : c₁.step = c₁.accept := by
    simp only [Config.step, hstate₁, accept_free.1, hahead, head?_nil, Option.map_none, accept_free.2]
  rw [← hsame] at hstacked
  obtain ⟨tree', haccepts⟩ := hstacked.accept hstate₁
  rcases Config.accept_cases c₁ with ⟨f, below, tree, hframes, -, hnode, haccept⟩ | hstuck
  · refine ⟨tree, c₁.parser, parse_of_accepted (hafter.trans hafter₁) (hstep.trans haccept), ?_⟩
    rw [hsame, hstack] at hframes
    obtain ⟨rfl, -⟩ := List.cons.inj hframes
    rwa [← hnode]
  · rw [hstuck] at haccepts
    cases haccepts

end JsMinify
