import JsMinify.Proofs.Parser.Insertion
import Mathlib.Data.List.Forall2

/-!
# Derivations

A `Derivation` is a tree of rules with tokens at its leaves. It is `Valid` if every rule is one of the grammar
and stands over its right side; `Derivation.tokens` is its yield, and `Derivation.eval` applies the actions
of the rules from the leaves up. The automaton plays no part in these definitions.

While a text is parsed, each symbol on the stack has a derivation for what was shifted since the symbol
below it (`Traced`). So a parsed tree is the value of a derivation of a program from the tokens that were
shifted (`parse_sound`), and what every rule keeps holds of every parsed tree (`Derivation.Valid.keeps`).
-/

namespace JsMinify

open List

namespace Grammar

/-- What a rule makes of the items of its right side: its line is that of the first one, or the given one
if there is none. -/
def Rule.item (r : Rule) (line : Nat) (items : List Item) : Item :=
  ⟨r.action.run items, match items with
    | first :: _ => first.line
    | [] => line⟩

/-- The values of items have a property, each with the symbol that it stands for. -/
abbrev ItemsHold (P : Sym → Value → Prop) (right : List Sym) (items : List Item) : Prop :=
  Forall₂ (fun s i => P s i.value) right items

/-- A tree of rules with tokens at its leaves. -/
inductive Derivation where
  | token (t : Token)
  /-- A rule above the derivations of its right side. The line is that of the lexer when the rule was
  applied; it counts if the right side is empty. -/
  | rule (r : Rule) (line : Nat) (below : List Derivation)

namespace Derivation

def symbol : Derivation → Sym
  | .token t => .t t.kind
  | .rule r _ _ => .n r.left

mutual
def tokens : Derivation → List Token
  | .token t => [t]
  | .rule _ _ below => tokensAll below

def tokensAll : List Derivation → List Token
  | [] => []
  | d :: ds => tokens d ++ tokensAll ds
end

mutual
/-- The value of a derivation: the actions of its rules are applied from the leaves up. -/
def eval : Derivation → Item
  | .token t => ⟨.token t, t.line⟩
  | .rule r line below => r.item line (evalAll below)

def evalAll : List Derivation → List Item
  | [] => []
  | d :: ds => eval d :: evalAll ds
end

/-- Every rule is one of the grammar and stands above its right side. -/
inductive Valid : Derivation → Prop where
  | token (t : Token) : Valid (.token t)
  | rule {r : Rule} {line : Nat} {below : List Derivation} (listed : r ∈ rules)
      (spells : below.map symbol = r.right) (valid : ∀ d ∈ below, Valid d) : Valid (.rule r line below)

theorem tokensAll_eq (ds : List Derivation) : tokensAll ds = ds.flatMap tokens := by
  induction ds with
  | nil => rfl
  | cons d ds ih => rw [tokensAll, ih, flatMap_cons]

def kinds (d : Derivation) : List TokenKind := d.tokens.map (·.kind)

theorem kinds_rule (r : Rule) (line : Nat) (below : List Derivation) : (rule r line below).kinds = below.flatMap kinds := by
  rw [kinds, tokens, tokensAll_eq, map_flatMap]
  rfl

theorem evalAll_eq (ds : List Derivation) : evalAll ds = ds.map eval := by
  induction ds with
  | nil => rfl
  | cons d ds ih => rw [evalAll, ih, map_cons]

/-- A derivation of a nonterminal applies one of its rules. -/
theorem Valid.exists_rule {d : Derivation} {A : Nonterminal} (h : d.Valid) (hs : d.symbol = .n A) :
    ∃ r line below, d = .rule r line below ∧ r ∈ rules ∧ r.left = A ∧ below.map symbol = r.right ∧ ∀ e ∈ below, e.Valid := by
  cases h with
  | token t => cases hs
  | @rule r line below listed spells valid => exact ⟨r, line, below, rfl, listed, Sym.n.inj hs, spells, valid⟩

theorem itemsHold_below {P : Sym → Value → Prop} {r : Rule} {below : List Derivation} (spells : below.map symbol = r.right)
    (h : ∀ d ∈ below, P d.symbol d.eval.value) : ItemsHold P r.right (evalAll below) := by
  rw [ItemsHold, evalAll_eq, ← spells, forall₂_map_left_iff, forall₂_map_right_iff, forall₂_same]
  exact h

/-- What holds of the tokens of a derivation, and is kept by the rules, holds of its value. -/
theorem Valid.keeps {P : Sym → Value → Prop} {d : Derivation} (h : d.Valid) (token : ∀ t ∈ d.tokens, P (.t t.kind) (.token t))
    (rule : ∀ r ∈ rules, ∀ items, ItemsHold P r.right items → P (.n r.left) (r.action.run items)) : P d.symbol d.eval.value := by
  induction h with
  | token t => exact token t (by simp [tokens])
  | @rule r line below listed spells _ ih =>
    refine rule r listed _ (itemsHold_below spells fun d hd => ih d hd fun t ht => token t ?_)
    rw [tokens, tokensAll_eq]
    exact mem_flatMap.2 ⟨d, hd, ht⟩

end Derivation

namespace Table

/-- A program is recognised at the bottom of the stack only. -/
theorem eq_zero_of_wants_program : ∀ q < stateCount, wants q .program → q = 0 := by decide +kernel

end Table

end Grammar

open Grammar

variable {c : Config}

namespace Config

variable {stack : List Frame}

/-- No symbol leads into the first state. -/
theorem Stacked.eq_nil (h : Stacked stack) (hs : stateOf stack = 0) : stack = [] := by
  cases h with
  | nil => rfl
  | @cons f rest edge _ _ =>
    have hf : f.state = 0 := hs
    have hentry := Table.edge_entry edge
    rw [hf] at hentry
    have hnone : Table.entry 0 = none := by decide +kernel
    rw [hnone] at hentry
    cases hentry

/-- The derivation of what stands in a frame. -/
structure Explains (d : Derivation) (f : Frame) : Prop where
  valid : d.Valid
  symbol : d.symbol = f.sym
  eval : d.eval = f.item

variable {ds : List Derivation} {fs : List Frame}

theorem Explains.symbols (h : List.Forall₂ Explains ds fs) : ds.map Derivation.symbol = symbols fs := by
  induction h with
  | nil => rfl
  | cons first _ ih => rw [map_cons, first.symbol, ih]; rfl

theorem Explains.items (h : List.Forall₂ Explains ds fs) : Derivation.evalAll ds = fs.map (·.item) := by
  induction h with
  | nil => rfl
  | cons first _ ih => rw [Derivation.evalAll, first.eval, ih, map_cons]

theorem Explains.all_valid (h : List.Forall₂ Explains ds fs) : ∀ d ∈ ds, d.Valid := by
  induction h with
  | nil => simp
  | cons first _ ih => exact forall_mem_cons.2 ⟨first.valid, ih⟩

/-- A reduction puts the derivations of a right side under its rule. -/
theorem Explains.reduce (h : List.Forall₂ Explains ds c.stack)
    {i : Nat} {r : Rule} (rule : Table.rule? i = some r) (handle : c.Handle r) :
    List.Forall₂ Explains (.rule r c.parser.lexer.line (ds.take r.right.length).reverse :: ds.drop r.right.length)
      (c.reduced r).stack := by
  have hright : List.Forall₂ Explains (ds.take r.right.length).reverse (c.stack.take r.right.length).reverse :=
    forall₂_reverse_iff.2 (forall₂_take _ h)
  refine .cons ⟨.rule (Table.mem_rules_of_rule? rule) ?_ (all_valid hright), rfl, ?_⟩ (forall₂_drop _ h)
  · rw [symbols hright]
    exact handle
  · rw [Derivation.eval, items hright]
    rfl

/-- A program stands alone on the stack. -/
def ProgramAlone (stack : List Frame) : Prop :=
  ∀ above f below, stack = above ++ f :: below → f.sym = .n .program → below = []

theorem ProgramAlone.drop (h : ProgramAlone stack) (n : Nat) : ProgramAlone (stack.drop n) := by
  intro above f below he
  refine h (stack.take n ++ above) f below ?_
  rw [append_assoc, ← he, take_append_drop]

theorem ProgramAlone.cons (h : ProgramAlone stack) {f : Frame}
    (hf : f.sym = .n .program → stack = []) : ProgramAlone (f :: stack) := by
  intro above g below he
  cases above with
  | nil =>
    obtain ⟨rfl, rfl⟩ := List.cons.inj he
    exact hf
  | cons x above =>
    obtain ⟨-, he⟩ := List.cons.inj he
    exact h above g below he

/-- A step puts nothing below a program. -/
theorem ProgramAlone.step {c' : Config} (h : ProgramAlone c.stack) (hc : Stacked c.stack)
    (hs : c.step = .next c') : ProgramAlone c'.stack := by
  cases goes_of_step hs with
  | reduce why rule _ =>
    refine (h.drop _).cons fun hp => ?_
    obtain ⟨r', hr', -, hwants⟩ := hc.handle why
    obtain rfl := Option.some.inj (hr'.symm.trans rule)
    rw [Sym.n.inj hp] at hwants
    have hbelow := hc.drop r'.right.length
    exact hbelow.eq_nil (Table.eq_zero_of_wants_program _ hbelow.state_lt hwants)
  | read _ _ _ => exact h
  | shift _ _ _ => exact h.cons fun hp => by cases hp
  | putOff _ _ _ _ _ => exact h

end Config

/-- The invariant of a run: the symbols on the stack have derivations, which yield the tokens that were
shifted. -/
structure Traced (r : Recorded) : Prop where
  stacked : Config.Stacked r.config.stack
  alone : Config.ProgramAlone r.config.stack
  explained : ∃ ds, List.Forall₂ Config.Explains ds r.config.stack ∧
    ds.reverse.flatMap Derivation.tokens = r.shifted.map (·.token)

variable {r : Recorded}

/-- Each step keeps derivations of what is on the stack. -/
theorem Traced.step (h : Traced r) (hs : r.config.step = .next c) : Traced (r.follow c) := by
  obtain ⟨ds, hds, htokens⟩ := h.explained
  have hstacked := h.stacked.step hs
  have halone := h.alone.step h.stacked hs
  cases Config.goes_of_step hs with
  | @reduce i rule why hrule handle =>
    rw [follow_reduced]
    refine ⟨hstacked, halone, _, Config.Explains.reduce hds hrule handle, ?_⟩
    rw [reverse_cons, flatMap_append, ← htokens]
    conv => rhs; rw [← take_append_drop rule.right.length ds, reverse_append]
    simp [Derivation.tokens, Derivation.tokensAll_eq]
  | read _ unread _ =>
    rw [follow_unread unread]
    exact ⟨hstacked, halone, ds, hds, htokens⟩
  | @shift t s _ look _ =>
    rw [follow_shift look rfl]
    refine ⟨hstacked, halone, .token t :: ds, .cons ⟨.token t, rfl, rfl⟩ hds, ?_⟩
    simp [htokens, Derivation.tokens]
  | @putOff look _ ahead _ _ fresh =>
    rw [follow_putOff ahead fresh]
    exact ⟨hstacked, halone, ds, hds, htokens⟩

/-- So does a whole run. -/
theorem Traced.record (h : Traced r) (fuel : Nat) : Traced (record fuel r) :=
  record_keeps (fun _ _ h hs => h.step hs) h fuel

theorem start_traced (text : String) : Traced { config := Config.start text } := by
  refine ⟨.nil, ?_, [], .nil, rfl⟩
  intro above f below he
  cases above <;> cases he

/-- At the end of a run the program on the stack has a derivation from all tokens shifted. -/
theorem Traced.accepted (h : Traced r) {tree : Node} {p : Parser} (hs : r.config.step = .accepted tree p) :
    ∃ d : Derivation, d.Valid ∧ d.symbol = .n .program ∧ d.tokens = r.shifted.map (·.token) ∧ d.eval.value = .node tree := by
  obtain ⟨ds, hds, htokens⟩ := h.explained
  cases Config.ends_of_step hs (fun _ => Progress.noConfusion) with
  | @accepted f rest _ _ stack sym value =>
    obtain rfl := h.alone [] f rest stack sym
    rw [stack] at hds
    obtain ⟨d, ds', hd, hrest, rfl⟩ := forall₂_cons_right_iff.1 hds
    obtain rfl := forall₂_nil_right_iff.1 hrest
    refine ⟨d, hd.valid, hd.symbol.trans sym, ?_, by rw [hd.eval, value]⟩
    simpa using htokens

/-- The parser is sound for the grammar: a tree that it returns is the value of a derivation of a program, by
the rules of the grammar, and the derivation yields the tokens that were shifted, made up semicolons
included, in their order. -/
theorem parse_sound {text : String} {tree : Node} {p : Parser} (h : parse text = (.ok tree, p)) :
    ∃ d : Derivation, d.Valid ∧ d.symbol = .n .program ∧
      d.tokens = (shiftedIn text).map (·.token) ∧ d.eval.value = .node tree :=
  ((start_traced text).record _).accepted (record_accepted h)

/-- The semicolon that ends the statement in a block is made up, and part of the derivation. -/
theorem parse_sound_of_block :
    ∃ tree p, parse "\x7ba\x7d" = (.ok tree, p) ∧ ∃ d : Derivation, d.Valid ∧ d.symbol = .n .program ∧
      d.tokens.map (·.kind) = [.lbrace, .identifier, .semi, .rbrace] ∧ d.eval.value = .node tree := by
  have hok : (parse "\x7ba\x7d").1.isOk = true := by decide +kernel
  have hshifted : (shiftedIn "\x7ba\x7d").map (·.token.kind) = [.lbrace, .identifier, .semi, .rbrace] := by decide +kernel
  rcases hparse : parse "\x7ba\x7d" with ⟨e | tree, p⟩
  · rw [hparse] at hok
    cases hok
  · obtain ⟨d, valid, symbol, tokens, value⟩ := parse_sound hparse
    refine ⟨tree, p, rfl, d, valid, symbol, ?_, value⟩
    rw [tokens, List.map_map]
    exact hshifted

end JsMinify
