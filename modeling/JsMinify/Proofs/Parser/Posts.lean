import JsMinify.Node.Compact
import JsMinify.Proofs.Parser.Follow
import JsMinify.Proofs.Parser.Shapes

/-!
# What semicolons are made up for

A semicolon that is made up should end a statement. Nothing in the parser keeps it from being a statement of its own, or
one of the two in the header of a `for` statement; `Derivation.posts` tells what each token is. An empty statement is
made up as the body of another statement only, and never as an element of a list of statements
(`made_up_semicolon_posts`). For where a statement may begin, a semicolon is of no use: what does not fit there does not
fit behind an empty statement either, and the run is lost (`Config.Lost`).
-/

namespace JsMinify

open List

variable {k : Option TokenKind} {q : Grammar.State} {c : Config} {i : Nat} {p : Parser}

namespace Grammar

/-- What a token is to the statement that it stands in. -/
inductive Post where
  /-- An empty statement in a list of statements. -/
  | element
  /-- An empty statement that is the body of another one. -/
  | body
  /-- One of the two semicolons in the header of a `for` statement. -/
  | header
  /-- Any other token. -/
  | inner
  deriving DecidableEq

def Rule.isFor (r : Rule) : Bool := r.left == .iteration && r.right.head? == some (.t .kwFor)

namespace Derivation

mutual
/-- What the tokens of a derivation are; given is whether a statement is an element of a list, and a semicolon part of
a header. -/
def posts (listed header : Bool) : Derivation → List Post
  | .token t => [if header && t.kind == .semi then .header else .inner]
  | .rule r _ below =>
    if r.left = .emptyStatement then [if listed then .element else .body]
    else postsAll (if r.left = .statement then listed else r.left == .sourceElement) r.isFor below

def postsAll (listed header : Bool) : List Derivation → List Post
  | [] => []
  | d :: ds => posts listed header d ++ postsAll listed header ds
end

/-- For each token of a derivation whether it is an empty statement in a list. -/
def elements (listed : Bool) (d : Derivation) : List Bool := (d.posts listed false).map (· == .element)

theorem map_posts (listed header : Bool) (d : Derivation) :
    (d.posts listed header).map (· == .element) = d.elements listed := by
  cases d with
  | token t => cases h : header && t.kind == .semi <;> simp [elements, posts, h]
  | rule r line below => rfl

theorem map_postsAll (listed header : Bool) (ds : List Derivation) :
    (postsAll listed header ds).map (· == .element) = ds.flatMap (elements listed) := by
  induction ds with
  | nil => rfl
  | cons d ds ih => rw [postsAll, map_append, map_posts, ih, flatMap_cons]

theorem elements_rule (listed : Bool) (r : Rule) (line : Nat) (below : List Derivation) :
    (Derivation.rule r line below).elements listed = if r.left = .emptyStatement then [listed]
      else below.flatMap (elements (if r.left = .statement then listed else r.left == .sourceElement)) := by
  rw [elements, posts]
  split
  · cases listed <;> rfl
  · exact map_postsAll _ _ _

end Derivation

/-- The rules for statements have one symbol on the right, and an empty statement is a semicolon. -/
theorem statement_rules : ∀ r ∈ rules, (r.left = .emptyStatement → r.right = [.t .semi]) ∧
    (r.left = .statement ∨ r.left = .sourceElement → r.right.length = 1) := by decide +kernel

namespace Derivation

/-- A semicolon, or an empty statement that may still become an element of a list. -/
def IsHollow (d : Derivation) : Prop := d.symbol = .t .semi ∨ d.elements true ≠ d.elements false

section

variable {r : Rule} {line : Nat} {below : List Derivation} (listed : r ∈ rules) (spells : below.map symbol = r.right)

include listed spells

/-- What may become an element of a list is made of such a thing alone. -/
theorem hollow_below (h : (Derivation.rule r line below).IsHollow) : ∃ d, below = [d] ∧ d.IsHollow := by
  have hrule := statement_rules r listed
  have hne := h.resolve_left nofun
  rw [elements_rule, elements_rule] at hne
  split at hne
  · next he =>
    rw [← spells] at hrule
    obtain ⟨d, rfl, hd⟩ := map_eq_singleton_iff.1 (hrule.1 he)
    exact ⟨d, rfl, .inl hd⟩
  · split at hne
    · next hs =>
      have hone : below.length = 1 := by
        rw [← length_map, spells]
        exact hrule.2 (.inl hs)
      obtain ⟨d, rfl⟩ := length_eq_one_iff.1 hone
      exact ⟨d, rfl, .inr (by simpa using hne)⟩
    · exact absurd rfl hne

/-- A rule that is not for the elements of a list changes nothing. -/
theorem elements_below (hleft : r.left ≠ .sourceElement) :
    (Derivation.rule r line below).elements false = below.flatMap (elements false) := by
  rw [elements_rule]
  split
  · next he =>
    have hrule := statement_rules r listed
    rw [← spells] at hrule
    obtain ⟨d, rfl, hd⟩ := map_eq_singleton_iff.1 (hrule.1 he)
    cases d with
    | token t => rfl
    | rule => cases hd
  · congr 2
    split
    · rfl
    · exact beq_eq_false_iff_ne.2 hleft

end

theorem Valid.elements_cases {d : Derivation} (h : d.Valid) :
    d.elements true = d.elements false ∨ d.elements true = [true] ∧ d.elements false = [false] := by
  induction h with
  | token t => exact .inl rfl
  | @rule r line below listed spells _ ih =>
    by_cases hhollow : (Derivation.rule r line below).elements true = (Derivation.rule r line below).elements false
    · exact .inl hhollow
    · obtain ⟨d, rfl, -⟩ := hollow_below listed spells (.inr hhollow)
      rw [elements_rule, elements_rule] at hhollow ⊢
      split at hhollow
      · next he => exact .inr (by simp [he])
      · split at hhollow
        · next he hs => simpa [he, hs] using ih d (by simp)
        · exact absurd rfl hhollow

end Derivation

/-! ## Where a semicolon is of no use -/

namespace Table

/-- All kinds of tokens, and the end of the text. -/
def nextKinds : List (Option TokenKind) := none :: TokenKind.all.map some

theorem mem_nextKinds (k : Option TokenKind) : k ∈ nextKinds := by
  cases k with
  | none => exact mem_cons_self
  | some k => cases k <;> decide

def listState : State := 78

def listFollowers : List (Option TokenKind) := nextKinds.filter fun k => (move listState k).isSome

/-- The symbol is a statement, a list of statements, or the end of one. -/
def endsStatement (A : Nonterminal) : Bool := A.patience == ⟨0, 1⟩

/-- The rule is for a symbol that ends a statement. -/
def isClosing (i : Nat) : Bool := (rule? i).any fun r => endsStatement r.left

/-- A statement that is ended before a semicolon is ended before all that may follow a list as well, and nothing but
what ends a statement ends the next one. -/
def endsFairly (q : State) : Bool :=
  (match forced? q, move q (some .semi) with
    | none, some (.reduce i) => !isClosing i || listFollowers.all fun k => (move q k).isSome
    | _, _ => true) &&
  match entry q with
    | some (.n A) => endsStatement A || (reductions q).all fun e => !isClosing e.2
    | _ => true

theorem states_end_fairly : ∀ q < stateCount, endsFairly q := by decide +kernel

/-- Reductions by rules with one symbol on the right lead to a state where neither what is next nor a semicolon before
the end of the text fits. -/
def isLost (below : State) (next : Option TokenKind) : Nat → State → Bool
  | 0, _ => false
  | n + 1, q =>
    match (forced? q).elim (move q next) (some ∘ .reduce) with
    | none => next.isSome || (move q (some .semi)).isNone
    | some (.reduce i) => (rule? i).any fun r => r.right.length == 1 && isLost below next n (goto below r.left)
    | _ => false

/-- Where a statement may begin and something does not fit, it comes again unchanged, and is lost behind a semicolon. -/
def rejectsFirmly (q : State) : Bool :=
  !wants q .sourceElement || (q == listState || !(entry q matches some (.n _))) &&
      nextKinds.all fun k => (move q k).isSome || k.any (·.isTrivia) || k.all (!·.mayBreak) && match move q (some .semi) with
          | some (.shift s) => isLost q k 8 s
          | _ => true

theorem states_reject_firmly : ∀ q < stateCount, rejectsFirmly q := by decide +kernel

variable {next : Option TokenKind} {n : Nat}

theorem isLost_reduce {below : State} {r : Rule} (h : isLost below next n q)
    (rule : rule? i = some r) (why : forced? q = some i ∨ forced? q = none ∧ move q next = some (.reduce i)) :
    r.right.length = 1 ∧ ∃ m, isLost below next m (goto below r.left) := by
  cases n with
  | zero => cases h
  | succ n =>
    have hmove : (forced? q).elim (move q next) (some ∘ .reduce) = some (.reduce i) := by
      rcases why with forced | ⟨free, entry⟩
      · rw [forced]
        rfl
      · rw [free]
        exact entry
    simp only [isLost, hmove, rule, Option.any_some, Bool.and_eq_true, beq_iff_eq] at h
    exact ⟨h.1, n, h.2⟩

theorem isLost_move {below : State} (h : isLost below next n q)
    (free : forced? q = none) : (∃ i, move q next = some (.reduce i)) ∨
      move q next = none ∧ (next = none → move q (some .semi) = none) := by
  cases n with
  | zero => cases h
  | succ n =>
    rw [isLost, free] at h
    cases hm : move q next with
    | none =>
      refine .inr ⟨rfl, ?_⟩
      rintro rfl
      simpa [hm] using h
    | some m =>
      cases m with
      | reduce i => exact .inl ⟨i, rfl⟩
      | _ => simp [hm] at h

end Table

end Grammar

open Grammar

/-! ## Lost runs -/

/-- What a parser has before it cannot be put off again: the end of the text, or a token that was put off already. -/
inductive Parser.Faces (p : Parser) : Option (Option Token) → Option TokenKind → Prop where
  | waiting {t : Token} (waits : Waits p t) (solid : t.kind.mayBreak = false) : Faces p none (some t.kind)
  | held {t : Token} (seen : t ∈ p.seen) : Faces p (some (some t)) (some t.kind)
  | unread (pushed : p.lexer.pushed = []) (rest : p.lexer.rest = []) : Faces p none none
  | ended : Faces p (some none) none

theorem Parser.Faces.look {look : Option Token} (h : p.Faces (some look) k) : look.map (·.kind) = k := by
  cases h <;> rfl

/-- A token that comes again is the same as before if it holds no line break. -/
theorem Parser.Faces.read (h : p.Faces none k) {t : Option Token} {l : Lexer}
    (token : p.lexer.token = (.ok t, l)) : { p with lexer := l }.Faces (some t) k := by
  cases h with
  | @waiting u waits solid =>
    obtain ⟨l', hl, -⟩ := Lexer.token_pushed waits.pushed
    obtain ⟨hbreaks, hline⟩ := waits.same solid
    rw [token, hbreaks, Nat.add_zero, ← hline] at hl
    obtain rfl := Except.ok.inj (Prod.mk.inj hl).1
    exact .held waits.seen
  | unread pushed rest =>
    rw [(Lexer.token_read pushed token).eq_none rest]
    exact .ended

namespace Config

/-- A run that comes to nothing. -/
inductive Lost (c : Config) : Prop where
  /-- Above a state the run goes on until what is next does not fit. -/
  | doomed {f : Frame} {rest : List Frame} {k : Option TokenKind} {n : Nat} (stack : c.stack = f :: rest)
      (lost : Table.isLost (stateOf rest) k n f.state = true) (faces : c.parser.Faces c.ahead k)
  /-- A semicolon does not fit. -/
  | refused {t : Token} (free : Table.forced? c.state = none) (ahead : c.ahead = some (some t)) (kind : t.kind = .semi)
      (entry : Table.move c.state (some .semi) = none)

/-- What is lost stays lost. -/
theorem Lost.step {c' : Config} (h : c.Lost) (hs : c.step = .next c') : c'.Lost := by
  cases h with
  | refused free ahead kind entry =>
    cases goes_of_step hs with
    | reduce why _ _ =>
      rcases why with forced | ⟨-, look, hlook, hmove⟩
      · rw [free] at forced
        cases forced
      · cases ahead.symm.trans hlook
        rw [Option.map_some, kind, entry] at hmove
        cases hmove
    | read _ unread _ =>
      rw [ahead] at unread
      cases unread
    | shift _ look hmove =>
      cases Option.some.inj (ahead.symm.trans look)
      rw [kind, entry] at hmove
      cases hmove
    | putOff _ hlook _ _ fresh =>
      cases ahead.symm.trans hlook
      exact absurd kind (fresh _ rfl).2
  | @doomed f rest k n stack lost faces =>
    have hstate : c.state = f.state := by rw [state, stack]
    cases goes_of_step hs with
    | @reduce i r why rule handle =>
      have hwhy : Table.forced? f.state = some i ∨ Table.forced? f.state = none ∧ Table.move f.state k = some (.reduce i) := by
        rw [← hstate]
        refine why.imp_right fun ⟨free, look, ahead, entry⟩ => ⟨free, ?_⟩
        rw [ahead] at faces
        rwa [faces.look] at entry
      obtain ⟨hone, m, hlost⟩ := Table.isLost_reduce lost rule hwhy
      have hrest : c.stack.drop r.right.length = rest := by rw [hone, stack]; rfl
      refine .doomed (n := m) (f := ⟨(c.reduced r).state, _, _⟩) (congrArg (_ :: ·) hrest) ?_ faces
      rw [reduced_state, hrest]
      exact hlost
    | read _ unread token =>
      rw [unread] at faces
      exact .doomed stack lost (faces.read token)
    | shift free look entry =>
      rw [look] at faces
      rw [hstate] at free entry
      rw [show some _ = k from faces.look] at entry
      rcases Table.isLost_move lost free with ⟨i, hi⟩ | ⟨hi, -⟩ <;> rw [hi] at entry <;> cases entry
    | @putOff look free ahead entry _ fresh =>
      rw [ahead] at faces
      cases faces with
      | held seen => exact absurd seen (fresh _ rfl).1
      | ended =>
        rw [hstate] at free entry
        obtain hi | ⟨-, hsemi⟩ := Table.isLost_move lost free
        · obtain ⟨i, hi⟩ := hi
          rw [show Table.move f.state none = none from entry] at hi
          cases hi
        · refine .refused ?_ rfl rfl ?_
          · exact hstate ▸ free
          · exact hstate ▸ hsemi rfl

/-- The state behind a program is the last one. -/
theorem program_entered : ∀ q < Table.stateCount, Table.entry q = some (.n .program) → q = Table.acceptState := by
  decide +kernel

theorem Lost.not_accepted (h : c.Lost) (hc : Stacked c.stack) (tree : Node) (p : Parser) : c.step ≠ .accepted tree p := by
  intro hs
  cases ends_of_step hs (fun _ => Progress.noConfusion) with
  | @accepted f rest _ ahead stack sym _ =>
    cases h with
    | refused _ hahead _ _ =>
      rw [ahead] at hahead
      cases hahead
    | @doomed f' rest' k n stack' lost faces =>
      obtain ⟨rfl, rfl⟩ := List.cons.inj (stack.symm.trans stack')
      rw [ahead] at faces
      obtain rfl : k = none := faces.look.symm
      rw [stack] at hc
      cases hc with
      | cons edge _ _ =>
        rw [program_entered f.state (Table.edge_lt edge) (by rw [Table.edge_entry edge, sym])] at lost
        have haccept : Table.forced? Table.acceptState = none ∧ Table.move Table.acceptState none = some .accept := by
          decide +kernel
        rcases Table.isLost_move lost haccept.1 with ⟨i, hi⟩ | ⟨hi, -⟩ <;> rw [haccept.2] at hi <;> cases hi

end Config

/-! ## Runs with all semicolons in their places -/

namespace Grammar.Table

/-- While a semicolon that is made up is next, what it was put before does not fit, or it would not fit behind the
statement that has just been read. -/
def Due (q : State) (k : Option TokenKind) : Prop :=
  forced? q = none ∧ move q k = none ∨ ∃ A, entry q = some (.n A) ∧ (endsStatement A = true → move listState k = none)

/-- A reduction keeps a semicolon due. -/
theorem Due.reduce {p : State} (h : Due q k) (hq : q < stateCount) {r : Rule} (rule : rule? i = some r)
    (listed : ∃ la, (la, i) ∈ reductions q) (why : forced? q = none → move q (some .semi) = some (.reduce i))
    (hp : entry p = some (.n r.left)) : Due p k := by
  refine .inr ⟨r.left, hp, fun hends => ?_⟩
  have hclosing : isClosing i := by
    rw [isClosing, rule]
    exact hends
  have hfair := states_end_fairly q hq
  rw [endsFairly, Bool.and_eq_true] at hfair
  rcases h with ⟨free, entry⟩ | ⟨A, hA, hlist⟩
  · have hall := hfair.1
    simp only [free, why free, hclosing, Bool.not_true, Bool.false_or, all_eq_true] at hall
    by_contra hne
    have hsome := hall k (mem_filter.2 ⟨mem_nextKinds k, Option.isSome_iff_ne_none.2 hne⟩)
    rw [entry] at hsome
    cases hsome
  · have hall := hfair.2
    rw [hA] at hall
    obtain ⟨la, hla⟩ := listed
    rcases Bool.or_eq_true _ _ ▸ hall with hA' | hall
    · exact hlist hA'
    · have hnot := all_eq_true.1 hall _ hla
      rw [hclosing] at hnot
      cases hnot

/-- Where a statement may begin, a semicolon that is made up leads to nothing. -/
theorem Due.lost {s : State} (h : Due q k) (hq : q < stateCount) (hwants : wants q .sourceElement)
    (hk : k.any (·.isTrivia) = false) (entry : move q (some .semi) = some (.shift s)) :
    k.all (!·.mayBreak) ∧ isLost q k 8 s := by
  have hfirm := states_reject_firmly q hq
  rw [rejectsFirmly, hwants, Bool.not_true, Bool.false_or, Bool.and_eq_true] at hfirm
  have hnone : move q k = none := by
    rcases h with ⟨-, hnone⟩ | ⟨A, hA, hlist⟩
    · exact hnone
    · have hlast := hfirm.1
      rw [hA] at hlast
      obtain rfl : q = listState := by simpa using hlast
      have hlistState : Table.entry listState = some (.n .sourceElementList) := by decide +kernel
      obtain rfl := Sym.n.inj (Option.some.inj (hA.symm.trans hlistState))
      exact hlist rfl
  have hall := all_eq_true.1 hfirm.2 k (mem_nextKinds k)
  simpa [hnone, hk, entry] using hall

end Grammar.Table

/-- A token that is an element of a list of statements is not made up. -/
def Fair (element : Bool) (s : Shifted) : Prop := element = true → s.before = none

/-- The invariant of a run: no semicolon that is made up is an element of a list of statements, and if one has just been
shifted, it cannot become such an element. -/
structure Posted (r : Recorded) : Prop where
  due : ∀ look, r.before = some look → Table.Due r.config.state (look.map (·.kind))
  explained : ∃ ds, List.Forall₂ Config.Explains ds r.config.stack ∧
    ds.reverse.flatMap Derivation.tokens = r.shifted.map (·.token) ∧
    List.Forall₂ Fair (ds.flatMap fun d => (d.elements false).reverse) r.shifted.reverse ∧
    ∀ d ∈ ds.head?, d.IsHollow → ∀ s ∈ r.shifted.getLast?, s.before.isSome = true →
      Table.wants (Config.stateOf r.config.stack.tail) .sourceElement = false

section

variable {r : Recorded} {ts : List Token} (h : Posted r) (ahead : Ahead r.config.parser r.config.ahead r.before ts)
  (hc : Config.Stacked r.config.stack)

include h ahead hc

/-- A reduction puts no semicolon that is made up into a list of statements. -/
theorem Posted.reduce {rule : Rule} (why : r.config.Reduces i) (hrule : Table.rule? i = some rule)
    (handle : r.config.Handle rule) : Posted { r with config := r.config.reduced rule } := by
  obtain ⟨ds, hds, htokens, hfair, htop⟩ := h.explained
  have hlisted := Table.mem_rules_of_rule? hrule
  have hright : List.Forall₂ Config.Explains (ds.take rule.right.length).reverse
      (r.config.stack.take rule.right.length).reverse :=
    forall₂_reverse_iff.2 (forall₂_take _ hds)
  have hspells := (Config.Explains.symbols hright).trans handle
  -- A right side of one symbol is what stands on top of the stack.
  have hone : ∀ e, (ds.take rule.right.length).reverse = [e] → rule.right.length = 1 ∧ ds.head? = some e := by
    intro e he
    have hlength : rule.right.length = 1 := by rw [← hspells, he]; rfl
    rw [reverse_eq_iff, hlength] at he
    exact ⟨hlength, by simpa [head?_take] using congrArg List.head? he⟩
  constructor
  · intro look hbefore
    refine (h.due look hbefore).reduce hc.config_state_lt hrule why.listed (fun free => ?_)
      (Table.edge_entry (hc.edge_reduced why hrule))
    rcases why with forced | ⟨-, look', hlook, entry⟩
    · rw [free] at forced
      cases forced
    · rw [hbefore, hlook] at ahead
      cases ahead with
      | semi kind _ | lastSemi kind _ _ => simpa [kind] using entry
  · refine ⟨_, Config.Explains.reduce hds hrule handle, ?_, ?_, ?_⟩
    · rw [reverse_cons, flatMap_append, ← htokens]
      conv => rhs; rw [← take_append_drop rule.right.length ds, reverse_append]
      simp [Derivation.tokens, Derivation.tokensAll_eq]
    · rw [← take_append_drop rule.right.length ds, flatMap_append] at hfair
      rw [flatMap_cons]
      by_cases hleft : rule.left = .sourceElement
      · have hlength : (ds.take rule.right.length).reverse.length = 1 := by
          rw [← length_map, hspells]
          exact (statement_rules rule hlisted).2 (.inr hleft)
        obtain ⟨e, he⟩ := length_eq_one_iff.1 hlength
        obtain ⟨hlength, hhead⟩ := hone e he
        rw [reverse_eq_iff.1 he] at hfair
        rw [he, Derivation.elements_rule, hleft]
        rw [he] at hright
        rcases (Config.Explains.all_valid hright e (by simp)).elements_cases with hsame | ⟨hlisted, hfree⟩
        · simpa [hsame] using hfair
        · -- The statement is an empty one. Its semicolon was shifted last, and is not made up.
          simp only [reverse_singleton, flatMap_singleton, hfree, singleton_append] at hfair
          simp only [flatMap_singleton, hlisted, reduceCtorEq, if_false, beq_self_eq_true, reverse_singleton, singleton_append]
          obtain ⟨s, ss, -, hrest, hshifted⟩ := forall₂_cons_left_iff.1 hfair
          rw [hshifted]
          refine .cons (fun _ => ?_) hrest
          by_contra hmade
          have hlast : s ∈ r.shifted.getLast? := by rw [← head?_reverse, hshifted]; rfl
          have hwants := htop e hhead (.inr (by simp [hlisted, hfree])) s hlast (Option.isSome_iff_ne_none.2 hmade)
          obtain ⟨rule', hrule', -, hwants'⟩ := hc.handle why
          cases hrule'.symm.trans hrule
          rw [hlength, drop_one, hleft, hwants] at hwants'
          cases hwants'
      · rw [Derivation.elements_below hlisted hspells hleft, reverse_flatMap, reverse_reverse]
        exact hfair
    · intro d hd hhollow s hs hmade
      cases hd
      obtain ⟨e, he, hhollow'⟩ := Derivation.hollow_below hlisted hspells hhollow
      obtain ⟨hlength, hhead⟩ := hone e he
      have htail : (r.config.reduced rule).stack.tail = r.config.stack.tail := by
        change r.config.stack.drop rule.right.length = _
        rw [hlength, drop_one]
      change Table.wants (Config.stateOf (r.config.reduced rule).stack.tail) .sourceElement = false
      rw [htail]
      exact htop e hhead hhollow' s hs hmade

/-- Each step keeps the invariant, or the run comes to nothing. -/
theorem Posted.step (hs : r.config.step = .next c) : Posted (r.follow c) ∨ c.Lost := by
  obtain ⟨ds, hds, htokens, hfair, htop⟩ := h.explained
  cases Config.goes_of_step hs with
  | @reduce i rule why hrule handle =>
    rw [follow_reduced]
    exact .inl (h.reduce ahead hc why hrule handle)
  | read _ unread _ =>
    rw [follow_unread unread]
    exact .inl ⟨h.due, ds, hds, htokens, hfair, htop⟩
  | @putOff look free hlook entry _ fresh =>
    rw [follow_putOff hlook fresh]
    refine .inl ⟨fun look' hlook' => ?_, ds, hds, htokens, hfair, htop⟩
    cases hlook'
    exact .inl ⟨free, entry⟩
  | @shift t s free hlook entry =>
    rw [follow_shift hlook rfl]
    rw [hlook] at ahead
    by_cases hwants : r.before.isSome ∧ Table.wants r.config.state .sourceElement
    · -- The semicolon is made up where a statement may begin.
      obtain ⟨look, hbefore⟩ := Option.isSome_iff_exists.1 hwants.1
      have hdue := h.due look hbefore
      rw [hbefore] at ahead
      right
      cases ahead with
      | semi kind waits =>
        rw [kind] at entry
        obtain ⟨hsolid, hlost⟩ := hdue.lost hc.config_state_lt hwants.2 (by simpa using waits.solid) entry
        exact .doomed rfl (Config.state_eq r.config ▸ hlost) (.waiting waits (by simpa using hsolid))
      | lastSemi kind pushed rest =>
        rw [kind] at entry
        have hlost := (hdue.lost hc.config_state_lt hwants.2 rfl entry).2
        exact .doomed rfl (Config.state_eq r.config ▸ hlost) (.unread pushed rest)
    · refine .inl ⟨by simp, .token t :: ds, .cons ⟨.token t, rfl, rfl⟩ hds, ?_, ?_, ?_⟩
      · simp [htokens, Derivation.tokens]
      · rw [reverse_append]
        exact .cons (by simp [Fair]) hfair
      · intro d _ _ u hu hmade
        rw [getLast?_concat] at hu
        cases hu
        rw [tail_cons, ← Config.state_eq]
        exact Bool.eq_false_iff.2 fun hw => hwants ⟨hmade, hw⟩

end

/-- So does a whole run. -/
theorem Posted.record {text : String} {r : Recorded} {due : List Token} (hk : Kept text r due)
    (hc : Config.Stacked r.config.stack) (h : Posted r ∨ r.config.Lost) (fuel : Nat) :
    Posted (record fuel r) ∨ (record fuel r).config.Lost := by
  refine (record_keeps (P := fun r => (∃ due, Kept text r due) ∧ Config.Stacked r.config.stack ∧
    (Posted r ∨ r.config.Lost)) ?_ ⟨⟨due, hk⟩, hc, h⟩ fuel).2.2
  rintro r c ⟨⟨due, hk⟩, hc, h⟩ hs
  rw [follow_config]
  exact ⟨hk.step hs, hc.step hs, h.elim (·.step hk.ahead hc hs) (.inr <| ·.step hs)⟩

namespace Grammar

/-! ## Where bodies and headers are -/

/-- The last token at a level of brackets, or `true` and the token before the brackets that are the last thing there. -/
abbrev Lead := Option (TokenKind × Bool)

/-- What a token makes of the leads at all levels, the innermost first. -/
def Lead.next (s : List Lead) (k : TokenKind) : List Lead :=
  if [.lparen, .lbracket, .lbrace].contains k then some (k, false) :: s
  else if [.rparen, .rbracket, .rbrace].contains k then (s.tail.head?.join.filter (!·.2)).map (·.1, true) :: s.drop 2
  else some (k, false) :: s.tail

/-- The leads before each of some tokens. -/
def Lead.before (s : List Lead) : List TokenKind → List (List Lead)
  | [] => []
  | k :: ks => s :: before (next s k) ks

theorem Lead.before_append (s : List Lead) (ks ks' : List TokenKind) :
    Lead.before s (ks ++ ks') = Lead.before s ks ++ Lead.before (ks.foldl Lead.next s) ks' := by
  induction ks generalizing s with
  | nil => rfl
  | cons k ks ih => rw [cons_append, before, ih, before, foldl_cons, cons_append]

/-- A body stands behind `else`, `do`, the colon of a label or the header of a statement, a semicolon of a header in the
brackets behind `for`. -/
def Post.suits (s : List Lead) : Post → Bool
  | .body => s.head?.join.any [(.kwElse, false), (.kwDo, false), (.colon, false), (.kwIf, true), (.kwWhile, true),
    (.kwFor, true), (.kwWith, true)].contains
  | .header => s.tail.head?.join == some (.kwFor, false)
  | _ => true

/-- The right side of a rule closes the brackets that it opens, and holds statements and the semicolons of headers where
they may stand. -/
def Lead.fits (body header : Bool) (s : List Lead) : List Sym → Bool
  | [] => s.length == 1
  | .t k :: ss => (!(header && k == .semi) || Post.header.suits s) &&
    (!([.rparen, .rbracket, .rbrace].contains k) || 1 < s.length) && fits body header (Lead.next s k) ss
  | .n A :: ss => (!body || A != .emptyStatement && (A != .statement || Post.body.suits s)) &&
    fits body header (none :: s.tail) ss

theorem rules_fit : ∀ r ∈ rules, (r.left = .statement → r.right.all (fun s => s matches .n _)) ∧
    (r.left = .statement ∨ r.left = .emptyStatement ∨ Lead.fits (r.left != .sourceElement) r.isFor [none] r.right) := by
  decide +kernel

variable {s s' o : List Lead}

/-- Some leads tell what others do, and may leave some open. -/
abbrev Lead.Tells (s s' : List Lead) : Prop := Forall₂ (fun x y => ∀ k ∈ x, k ∈ y) s s'

/-- What is told stays so behind a token. -/
theorem Lead.Tells.next {k : TokenKind} (h : Lead.Tells s s') (hs : s ≠ [])
    (hk : !([.rparen, .rbracket, .rbrace].contains k) || 1 < s.length) :
    Lead.next s k ≠ [] ∧ ∃ t, Lead.next (s' ++ o) k = t ++ o ∧ Lead.Tells (Lead.next s k) t := by
  cases h with
  | nil => exact absurd rfl hs
  | @cons x y xs ys hx hxs =>
    unfold Lead.next
    split
    · exact ⟨cons_ne_nil _ _, _ :: y :: ys, rfl, .cons (by simp) (.cons hx hxs)⟩
    · split
      · next hcloses =>
        rw [hcloses] at hk
        cases hxs with
        | nil => cases hk
        | cons hy hys =>
          refine ⟨cons_ne_nil _ _, _ :: _, rfl, .cons (fun k hk => ?_) hys⟩
          obtain ⟨a, ha, rfl⟩ := Option.map_eq_some_iff.1 hk
          rw [Option.filter_eq_some_iff] at ha
          exact Option.map_eq_some_iff.2 ⟨a, Option.filter_eq_some_iff.2 (ha.imp_left (hy a)), rfl⟩
      · exact ⟨cons_ne_nil _ _, _ :: ys, rfl, .cons (by simp) hxs⟩

theorem Lead.Tells.suits {post : Post} (h : Lead.Tells s s') (hpost : post.suits s) : post.suits (s' ++ o) := by
  cases post with
  | body =>
    cases h with
    | nil => cases hpost
    | cons hx _ =>
      obtain ⟨k, hk, hmem⟩ := (Option.any_eq_true _ _).1 hpost
      exact (Option.any_eq_true _ _).2 ⟨k, hx k hk, hmem⟩
  | header =>
    cases h with
    | nil => cases hpost
    | cons _ hxs =>
      cases hxs with
      | nil => cases hpost
      | cons hy _ => exact beq_iff_eq.2 (hy _ (beq_iff_eq.1 hpost))
  | _ => rfl

namespace Derivation

/-- The tokens of a derivation suit the leads before them, and no bracket is left open. -/
def Led (d : Derivation) : Prop := ∀ listed header x o,
  (d.symbol = .n .statement ∨ d.symbol = .n .emptyStatement → listed = false → Post.body.suits (x :: o)) →
  (header = true → d.symbol = .t .semi → Post.header.suits (x :: o)) →
    Forall₂ (fun post s => post.suits s) (d.posts listed header) (Lead.before (x :: o) d.kinds) ∧
      ∀ A, d.symbol = .n A → ∃ y, d.kinds.foldl Lead.next (x :: o) = y :: o

/-- What one derivation after another has in a rule, all of them have together. -/
theorem led_all {ds : List Derivation} (h : ∀ d ∈ ds, d.Led) {listed body header : Bool}
    (hlisted : listed = false → body) (hs : s ≠ []) (hfits : Lead.fits body header s (ds.map symbol))
    (htells : Lead.Tells s s') :
    Forall₂ (fun post s => post.suits s) (postsAll listed header ds) (Lead.before (s' ++ o) (ds.flatMap kinds)) ∧
      ∃ y, (ds.flatMap kinds).foldl Lead.next (s' ++ o) = y :: o := by
  induction ds generalizing s s' with
  | nil =>
    obtain ⟨x, rfl⟩ := length_eq_one_iff.1 (beq_iff_eq.1 hfits)
    obtain ⟨y, _, -, hnil, rfl⟩ := forall₂_cons_left_iff.1 htells
    cases hnil
    exact ⟨.nil, y, rfl⟩
  | cons d ds ih =>
    obtain ⟨hd, hds⟩ := forall_mem_cons.1 h
    obtain ⟨x, xs, rfl⟩ := exists_cons_of_ne_nil hs
    obtain ⟨y, ys, hy, hys, rfl⟩ := forall₂_cons_left_iff.1 htells
    rw [postsAll, flatMap_cons, Lead.before_append, foldl_append]
    rw [map_cons] at hfits
    cases d with
    | token t =>
      simp only [symbol, Lead.fits, Bool.and_eq_true] at hfits
      obtain ⟨⟨hheader, hk⟩, hfits⟩ := hfits
      have hown := (hd listed header y (ys ++ o) (by rintro (hs | hs) <;> cases hs) fun htrue hsemi =>
        htells.suits (by simpa [htrue, Sym.t.inj hsemi] using hheader)).1
      obtain ⟨hne, s, hlead, htells⟩ := htells.next (o := o) hs hk
      have hrest := ih hds hne hfits htells
      rw [← hlead] at hrest
      exact ⟨rel_append hown hrest.1, hrest.2⟩
    | rule r line below =>
      simp only [symbol, Lead.fits, Bool.and_eq_true] at hfits
      obtain ⟨hbody, hfits⟩ := hfits
      obtain ⟨hown, hopened⟩ := hd listed header y (ys ++ o) (fun hs hl => htells.suits (by
        rw [hlisted hl] at hbody
        rcases hs with hs | hs <;> simp_all [symbol])) fun _ hs => by cases hs
      obtain ⟨z, hz⟩ := hopened _ rfl
      have htells : Lead.Tells (none :: xs) (z :: ys) := .cons (by simp) hys
      have hrest := ih hds (cons_ne_nil _ _) hfits htells
      rw [cons_append, ← hz] at hrest
      exact ⟨rel_append hown hrest.1, hrest.2⟩

/-- All tokens of a program stand where their posts ask for. -/
theorem Valid.led {d : Derivation} (h : d.Valid) : d.Led := by
  induction h with
  | token t =>
    intro listed header x o _ hheader
    refine ⟨?_, fun _ hs => by cases hs⟩
    rw [posts]
    split
    · next hsemi =>
      rw [Bool.and_eq_true, beq_iff_eq] at hsemi
      exact .cons (hheader hsemi.1 (congrArg Sym.t hsemi.2)) .nil
    · exact .cons rfl .nil
  | @rule r line below hr spells _ ih =>
    intro listed header x o hbody _
    obtain ⟨hone, hrule⟩ := rules_fit r hr
    rw [kinds_rule, posts]
    by_cases hempty : r.left = .emptyStatement
    · have hright := (statement_rules r hr).1 hempty
      rw [← spells] at hright
      obtain ⟨d, rfl, hd⟩ := map_eq_singleton_iff.1 hright
      cases d with
      | rule => cases hd
      | token t =>
        have hk : t.kind = .semi := Sym.t.inj hd
        have hlead : [Derivation.token t].flatMap kinds = [.semi] := by simp [kinds, tokens, hk]
        rw [if_pos hempty, hlead]
        refine ⟨.cons ?_ .nil, fun _ _ => ⟨_, rfl⟩⟩
        cases listed with
        | true => rfl
        | false => exact hbody (.inr (congrArg Sym.n hempty)) rfl
    rw [if_neg hempty]
    by_cases hleft : r.left = .statement
    · have hlength : below.length = 1 := by
        rw [← length_map, spells]
        exact (statement_rules r hr).2 (.inl hleft)
      obtain ⟨d, rfl⟩ := length_eq_one_iff.1 hlength
      have hfor : r.isFor = false := by rw [Rule.isFor, hleft]; rfl
      obtain ⟨hposts, hopened⟩ := ih d (by simp) listed false x o (fun _ => hbody (.inl (congrArg Sym.n hleft))) (by simp)
      rw [if_pos hleft, hfor, postsAll, postsAll, append_nil, flatMap_singleton]
      refine ⟨hposts, fun _ _ => ?_⟩
      have hsymbol := all_eq_true.1 (hone hleft) d.symbol (by rw [← spells]; simp)
      cases hs : d.symbol with
      | t k => simp [hs] at hsymbol
      | n A => exact hopened A hs
    rw [if_neg hleft]
    have hfits := (hrule.resolve_left hleft).resolve_left hempty
    rw [← spells] at hfits
    have htells : Lead.Tells [none] [x] := .cons (by simp) .nil
    exact (led_all ih (fun hl => by simpa using hl) (cons_ne_nil _ _) hfits htells).imp_right fun h _ _ => h

end Derivation

end Grammar

/-- A semicolon that is made up is never an empty statement in a list of statements: the tree of a text is the value of
a derivation from the tokens shifted, where each semicolon that was made up is part of a statement, the body of one, or
one of the two semicolons in the header of a `for` statement. It is a body only behind `else`, `do`, a label or the header
of a statement, and one in a header only in the brackets behind `for`: elsewhere it ends a statement. -/
theorem made_up_semicolon_posts {text : String} {tree : Node} {p : Parser} (h : parse text = (.ok tree, p)) :
    ∃ d : Derivation, d.Valid ∧ d.symbol = .n .program ∧ d.tokens = (shiftedIn text).map (·.token) ∧ d.eval.value = .node tree ∧
      List.Forall₂ (fun post s => s.before.isSome = true → post ≠ .element) (d.posts false false) (shiftedIn text) ∧
      List.Forall₂ (fun post s => post.suits s = true) (d.posts false false) (Lead.before [none] d.kinds) := by
  have haccepted := record_accepted (r := { config := Config.start text }) h
  have htraced := (start_traced text).record (Parser.budget text.length)
  have hstart : Posted { config := Config.start text } := ⟨nofun, [], .nil, rfl, .nil, nofun⟩
  rcases Posted.record (start_kept text) .nil (.inl hstart) (Parser.budget text.length) with hplaced | hlost
  · obtain ⟨ds, hds, htokens, hfair, -⟩ := hplaced.explained
    cases Config.ends_of_step haccepted (fun _ => Progress.noConfusion) with
    | @accepted f rest _ _ stack sym value =>
      obtain rfl := htraced.alone [] f rest stack sym
      rw [stack] at hds
      obtain ⟨d, ds', hd, hrest, rfl⟩ := List.forall₂_cons_right_iff.1 hds
      obtain rfl := List.forall₂_nil_right_iff.1 hrest
      simp only [List.reverse_singleton, List.flatMap_singleton] at htokens
      have hsymbol := hd.symbol.trans sym
      refine ⟨d, hd.valid, hsymbol, htokens, by rw [hd.eval, value], ?_, (hd.valid.led false false none [] ?_ (by simp)).1⟩
      · rw [List.flatMap_singleton, List.forall₂_reverse_iff, Derivation.elements, List.forall₂_map_left_iff] at hfair
        refine hfair.imp fun post s hpost hmade helement => ?_
        rw [hpost (beq_iff_eq.2 helement)] at hmade
        cases hmade
      · rw [hsymbol]
        rintro (hs | hs) <;> cases hs
  · exact absurd haccepted (hlost.not_accepted htraced.stacked tree p)

/-- The body of an `if` statement and a semicolon of a header are made up. -/
theorem semicolons_made_up_for_body_and_header :
    ∃ tree p, parse "for(a=1\nb;c)\x7bif(d)\x7d" = (.ok tree, p) ∧ tree.compact = .ok "for(a=1;b;c)if(d);" ∧
      ((shiftedIn "for(a=1\nb;c)\x7bif(d)\x7d").filter (·.before.isSome)).map (·.token.text) = [";", ";"] ∧
      ∃ d : Derivation, d.Valid ∧ d.eval.value = .node tree ∧
        List.Forall₂ (fun post s => s.before.isSome = true → post ≠ .element) (d.posts false false)
          (shiftedIn "for(a=1\nb;c)\x7bif(d)\x7d") := by
  obtain ⟨tree, p, hparse, htest⟩ := exists_of_test "for(a=1\nb;c)\x7bif(d)\x7d"
    (fun tree => tree.compact.toOption == some "for(a=1;b;c)if(d);") (by decide +kernel)
  obtain ⟨d, hvalid, -, -, hvalue, hposts, -⟩ := made_up_semicolon_posts hparse
  exact ⟨tree, p, hparse, ok_of_toOption (beq_iff_eq.1 htest), by decide +kernel, d, hvalid, hvalue, hposts⟩

end JsMinify
