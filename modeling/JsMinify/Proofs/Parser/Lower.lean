import JsMinify.Proofs.Lexer.Lower
import JsMinify.Proofs.Node.Names
import JsMinify.Proofs.Parser.Actions
import JsMinify.Proofs.Parser.Step

/-!
# Parsing further down

A run of the parser can be moved a number of lines down and given the history of an older parser: the
tokens that one put off and the illegal characters it met (`Config.lower`). The rules build the same trees
further down (`Action.run_lower`), and every move is the same one, further down, unless it puts off a token
that the older parser put off too (`step_lower`). In that case the token is rejected
(`step_of_mem_seen`). `run_lower` and `run_of_mem_seen` say the same of whole runs.
-/

namespace JsMinify

open List Node

namespace Node

/-- Every line is moved down. -/
def lowered (d : Nat) : Algebra Node where
  absent := .absent
  seq := fun ns => .seq (ns.map (·.2))
  node := fun k m parts => .node k { m with line := m.line + d } (parts.map (·.value))

/-- The same tree, some lines further down. -/
def lower (d : Nat) (n : Node) : Node := n.fold (lowered d)

variable (d : Nat)

@[simp] theorem lower_absent : absent.lower d = absent := rfl

@[simp] theorem lower_seq (ns : List Node) : (seq ns).lower d = seq (ns.map (lower d)) := by
  simp [lower, fold_seq, lowered]

@[simp] theorem lower_node (k : Kind) (m : Mark) (parts : List Node) :
    (node k m parts).lower d = node k { m with line := m.line + d } (parts.map (lower d)) := by
  simp [lower, fold_node, lowered, asPart]

theorem lower_modifyMark (n : Node) {f : Mark → Mark}
    (hf : ∀ m, f { m with line := m.line + d } = { f m with line := (f m).line + d }) :
    (n.lower d).modifyMark f = (n.modifyMark f).lower d := by
  cases n with
  | absent => rfl
  | seq ns => simp only [modifyMark, lower_seq]
  | node k m parts => simp only [modifyMark, lower_node, hf]

/-- What is built from trees further down is the same, further down. -/
theorem lower_congruent : Congruent (fun n n' => n.lower d = n') fun _ m m' => { m with line := m.line + d } = m' where
  absent := rfl
  seq h := by rw [lower_seq, map_eq_iff_forall₂.2 h]
  node hm h := by rw [lower_node, hm, map_eq_iff_forall₂.2 h]
  items {n _} h := by
    subst h
    cases n with
    | seq ns => exact map_eq_iff_forall₂.1 (by rw [lower_seq]; rfl)
    | absent => exact .nil
    | node => rw [lower_node]; exact .nil
  asCandidate h := h ▸ (lower_modifyMark d _ fun _ => rfl).symm
  asExpression h := h ▸ (lower_modifyMark d _ fun _ => rfl).symm

end Node

/-! ## Rules -/

namespace Grammar

def Value.lower (d : Nat) : Value → Value
  | .token t => .token (t.lower d)
  | .node n => .node (n.lower d)

def Item.lower (d : Nat) (i : Item) : Item := ⟨i.value.lower d, i.line + d⟩

variable (d : Nat) (args : List Item) {i : Nat}

theorem arg_lower (h : i < args.length) : arg (args.map (Item.lower d)) i = (arg args i).lower d := by
  simp [arg, getD_eq_getElem?_getD, h]

theorem arg_lower_value (i : Nat) : (arg (args.map (Item.lower d)) i).value = (arg args i).value.lower d := by
  by_cases h : i < args.length
  · rw [arg_lower d args h]
    rfl
  · simp [arg, getD_eq_getElem?_getD, h, Value.lower]

theorem nodeAt_lower (i : Nat) : nodeAt (args.map (Item.lower d)) i = (nodeAt args i).lower d := by
  unfold nodeAt
  rw [arg_lower_value]
  cases (arg args i).value <;> rfl

theorem textAt_lower (i : Nat) : textAt (args.map (Item.lower d)) i = textAt args i := by
  unfold textAt
  rw [arg_lower_value]
  cases (arg args i).value <;> rfl

theorem markAt_lower (h : i < args.length) :
    markAt (args.map (Item.lower d)) i = { markAt args i with line := (markAt args i).line + d } := by
  simp only [markAt, arg_lower d args h, Item.lower, Int.natCast_add]

/-- An action builds the same from the same items further down, further down. -/
theorem Action.run_lower {a : Action} (h : a.lines.all (· < args.length)) :
    (a.run args).lower d = a.run (args.map (Item.lower d)) := by
  refine run_congruent (V := fun v w => v.lower d = w) (lower_congruent d) (fun i => (nodeAt_lower d args i).symm)
    (fun i => (textAt_lower d args i).symm) (fun i hi _ => (markAt_lower d args (of_decide_eq_true (all_eq_true.1 h i hi))).symm) (fun _ => ?_)
    (fun i => (arg_lower_value d args i).symm) (congrArg Value.node)
  rw [nodeAt_lower]
  exact (lower_modifyMark d _ fun _ => rfl).symm

end Grammar

/-! ## Moves -/

open Grammar

def ParseError.lower (d : Nat) : ParseError → ParseError
  | .lex e => .lex (e.lower d)
  | .unexpected t before after =>
    .unexpected (t.lower d) (before.map (Token.lower d)) (after.map (Token.lower d))
  | .stuck => .stuck

def Frame.lower (d : Nat) (f : Frame) : Frame := { f with item := f.item.lower d }

/-- The same parser, some lines further down and with the history of an older one. -/
def Parser.lower (p : Parser) (d : Nat) (old : Parser) : Parser where
  lexer := p.lexer.lower d old.lexer.illegal
  seen := p.seen.map (Token.lower d) ++ old.seen

/-- No token that was put off was put off, further down, by an older parser. -/
def Parser.Unseen (p : Parser) (d : Nat) (old : Parser) : Prop := ∀ t ∈ p.seen, t.lower d ∉ old.seen

/-- The same state of a run, some lines further down and with the history of an older parser. -/
def Config.lower (d : Nat) (old : Parser) (c : Config) : Config where
  parser := c.parser.lower d old
  stack := c.stack.map (Frame.lower d)
  ahead := c.ahead.map (·.map (Token.lower d))

/-- The same move, some lines further down and with the history of an older parser. -/
def Progress.lower (d : Nat) (old : Parser) : Progress → Progress
  | .next c => .next (c.lower d old)
  | .accepted tree p => .accepted (tree.lower d) (p.lower d old)
  | .failed e p => .failed (e.lower d) (p.lower d old)

/-- The same result of a run, some lines further down and with the history of an older parser. -/
def Config.lowerResult (d : Nat) (old : Parser) : Except ParseError Node × Parser → Except ParseError Node × Parser
  | (.ok tree, p) => (.ok (tree.lower d), p.lower d old)
  | (.error e, p) => (.error (e.lower d), p.lower d old)

namespace Config

variable (d : Nat) (old : Parser) (c : Config) {r : Except ParseError Node × Parser}

theorem token_lower : (c.lower d old).parser.lexer.token = Lexer.lowerResult d old.lexer.illegal c.parser.lexer.token :=
  Lexer.token_lower d old.lexer.illegal c.parser.lexer

theorem state_lower : (c.lower d old).state = c.state := by
  unfold state lower
  cases c.stack <;> rfl

theorem read_lower : (c.lower d old).read = c.read.lower d old := by
  unfold read
  rw [token_lower]
  rcases c.parser.lexer.token with ⟨e | t, l⟩ <;> rfl

theorem reject_lower (t : Token) : (c.lower d old).reject (t.lower d) = (c.reject t).lower d old := by
  unfold reject
  rw [token_lower]
  rcases c.parser.lexer.token with ⟨e | t, l⟩ <;> rfl

theorem accept_lower : (c.lower d old).accept = c.accept.lower d old := by
  unfold accept lower
  rcases c.stack with _ | ⟨⟨s, sym, v, line⟩, rest⟩
  · rfl
  · rcases sym with k | n
    · rfl
    · cases n <;> cases v <;> rfl

theorem frames_lower (n : Nat) : ((c.lower d old).stack.take n).reverse = ((c.stack.take n).reverse).map (Frame.lower d) := by
  rw [lower, ← map_take, ← map_reverse]

theorem handle_lower (r : Rule) : (c.lower d old).Handle r ↔ c.Handle r := by
  unfold Handle symbols
  rw [frames_lower, map_map]
  rfl

theorem reduced_lower {r : Rule} (hr : r ∈ rules) (hh : c.Handle r) :
    (c.lower d old).reduced r = (c.reduced r).lower d old := by
  have hitems : (((c.lower d old).stack.take r.right.length).reverse).map (·.item) =
      (((c.stack.take r.right.length).reverse).map (·.item)).map (Item.lower d) := by
    rw [frames_lower, map_map, map_map]
    rfl
  have hrest : (c.lower d old).stack.drop r.right.length = (c.stack.drop r.right.length).map (Frame.lower d) := by
    rw [lower, ← map_drop]
  have hlen : (((c.stack.take r.right.length).reverse).map (·.item)).length = r.right.length := by
    have hh' := congrArg List.length hh
    rw [symbols, length_map] at hh'
    rw [length_map, hh']
  have hlines := rules_lines r hr
  rw [← hlen] at hlines
  have hstate : Config.state { c.lower d old with stack := (c.stack.drop r.right.length).map (Frame.lower d) } =
      Config.state { c with stack := c.stack.drop r.right.length } := by
    unfold state
    cases c.stack.drop r.right.length <;> rfl
  unfold reduced
  simp only [hitems, hrest, ← Action.run_lower d _ hlines, hstate]
  cases ((c.stack.take r.right.length).reverse).map (·.item) <;> rfl

theorem reduce_lower (i : Nat) : (c.lower d old).reduce i = (c.reduce i).lower d old := by
  rcases reduce_cases c i with ⟨r, hr, hh, he⟩ | ⟨he, hn⟩
  · rcases reduce_cases (c.lower d old) i with ⟨r', hr', -, he'⟩ | ⟨-, hn'⟩
    · cases hr.symm.trans hr'
      rw [he, he', reduced_lower d old c (Table.mem_rules_of_rule? hr) hh]
      rfl
    · exact absurd ((handle_lower d old c r).2 hh) (hn' r hr)
  · rcases reduce_cases (c.lower d old) i with ⟨r', hr', hh', -⟩ | ⟨he', -⟩
    · exact absurd ((handle_lower d old c r').1 hh') (hn r' hr')
    · rw [he, he']
      rfl

theorem semiAllowed_lower (look : Option Token) :
    (c.lower d old).parser.lexer.semiAllowed (look.map (Token.lower d)) = c.parser.lexer.semiAllowed look := by
  cases look with
  | none => rfl
  | some t =>
    have hprev : (c.parser.lexer.prev.map (Token.lower d)).any (·.kind = .lineEnd) =
        c.parser.lexer.prev.any (·.kind = .lineEnd) := by
      cases c.parser.lexer.prev <;> rfl
    exact congrArg (decide (t.kind = .rbrace) || ·) hprev

theorem putOffBy_lower (look : Option Token) :
    (c.lower d old).putOffBy (look.map (Token.lower d)) = (c.putOffBy look).lower d old := by
  cases look with
  | none => rfl
  | some t =>
    have hline : c.parser.lexer.line + d + t.breaks = c.parser.lexer.line + t.breaks + d :=
      Nat.add_right_comm _ _ _
    simp only [putOffBy, lower, Parser.lower, Lexer.lower, Lexer.makeSemi, Lexer.countBreaks, Option.map_some,
      Option.toList_some, map_append, map_cons, map_nil, append_assoc, Token.lower_breaks,
      hline]
    rfl

theorem mem_seen_lower (t : Token) : t.lower d ∈ (c.lower d old).parser.seen ↔ t ∈ c.parser.seen ∨ t.lower d ∈ old.seen := by
  have hinj : Function.Injective (Token.lower d) := fun _ _ => Token.lower_inj.1
  simp only [lower, Parser.lower, mem_append, mem_map_of_injective hinj]

theorem recover_lower (look : Option Token) (h : ∀ c', c.recover look = .next c' → c'.parser.Unseen d old) :
    (c.lower d old).recover (look.map (Token.lower d)) = (c.recover look).lower d old := by
  rcases recover_cases c look with ⟨allowed, fresh, he⟩ | ⟨t, rfl, he, why⟩
  · rcases recover_cases (c.lower d old) (look.map (Token.lower d)) with ⟨-, -, he'⟩ | ⟨t', ht', -, why⟩
    · rw [he, he', putOffBy_lower]
      rfl
    · -- The token is put off here, so it is rejected further down only if it is in the older history.
      obtain ⟨t, rfl, rfl⟩ := Option.map_eq_some_iff.1 ht'
      rw [mem_seen_lower, semiAllowed_lower] at why
      rcases why with (hseen | hold) | hsemi | hnot
      · exact absurd hseen (fresh t rfl).1
      · exact absurd hold (h _ he t mem_cons_self)
      · exact absurd hsemi (fresh t rfl).2
      · exact absurd allowed hnot
  · rcases recover_cases (c.lower d old) ((some t).map (Token.lower d)) with
      ⟨allowed, fresh, -⟩ | ⟨t', ht', he', -⟩
    · obtain ⟨hunseen, hkind⟩ := fresh _ rfl
      rw [mem_seen_lower] at hunseen
      rw [semiAllowed_lower] at allowed
      rcases why with hseen | hsemi | hnot
      · exact absurd (.inl hseen) hunseen
      · exact absurd hsemi hkind
      · exact absurd allowed hnot
    · cases ht'
      rw [he, he', reject_lower]

/-- A move further down is the same, unless it puts off a token that the older parser put off. -/
theorem step_lower (h : ∀ c', c.step = .next c' → c'.parser.Unseen d old) : (c.lower d old).step = c.step.lower d old := by
  unfold step at h ⊢
  rw [state_lower]
  cases hforced : Table.forced? c.state with
  | some i => exact reduce_lower d old c i
  | none =>
    cases hahead : c.ahead with
    | none =>
      have hahead' : (c.lower d old).ahead = none := by rw [lower, hahead]; rfl
      simp only [hahead']
      exact read_lower d old c
    | some look =>
      have hahead' : (c.lower d old).ahead = some (look.map (Token.lower d)) := by
        rw [lower, hahead]
        rfl
      have hkind : (look.map (Token.lower d)).map (·.kind) = look.map (·.kind) := by
        cases look <;> rfl
      simp only [hahead', hkind, hforced, hahead] at h ⊢
      cases hmove : Table.move c.state (look.map (·.kind)) with
      | none =>
        simp only [hmove] at h
        exact recover_lower d old c look h
      | some m =>
        cases m with
        | shift s =>
          cases look with
          | none =>
            simp only [hmove] at h
            exact recover_lower d old c none h
          | some t => rfl
        | reduce i => exact reduce_lower d old c i
        | accept => exact accept_lower d old c

/-- A token that the older parser put off is rejected. -/
theorem step_of_mem_seen {c c' : Config} (hc : c.parser.Unseen d old) (h : c.step = .next c')
    (hc' : ¬ c'.parser.Unseen d old) : ∃ e p, (c.lower d old).step = .failed e p := by
  cases goes_of_step h with
  | reduce | read | shift => exact absurd hc hc'
  | @putOff look free ahead entry =>
    unfold Parser.Unseen at hc'
    push Not at hc'
    obtain ⟨t, ht, hold⟩ := hc'
    rcases mem_append.1 ht with hlook | hseen
    · obtain rfl := Option.mem_toList.1 hlook
      have hstep : (c.lower d old).step = (c.lower d old).recover (some (t.lower d)) := by
        have hahead : (c.lower d old).ahead = some (some (t.lower d)) := by rw [lower, ahead]; rfl
        unfold step
        rw [state_lower, free, hahead]
        simp only [Option.map_some, Token.lower_kind] at entry ⊢
        rw [entry]
      have hseen : t.lower d ∈ (c.lower d old).parser.seen := (mem_seen_lower d old c t).2 (.inr hold)
      rw [hstep]
      rcases recover_cases (c.lower d old) (some (t.lower d)) with ⟨-, fresh, -⟩ | ⟨u, hu, he, -⟩
      · exact absurd hseen (fresh _ rfl).1
      · obtain ⟨e, hj, -⟩ := reject_cases (c.lower d old) u
        exact ⟨e, _, he.trans hj⟩
    · exact absurd hold (hc t hseen)

/-! ## Runs -/

/-- The tokens once put off stay. -/
theorem seen_of_step {c c' : Config} (h : c.step = .next c') : c.parser.seen ⊆ c'.parser.seen := by
  cases goes_of_step h with
  | reduce | read | shift => exact List.Subset.refl _
  | putOff => exact subset_append_right _ _

theorem seen_of_result {c : Config} (h : c.step.result? = some r) : r.2.seen = c.parser.seen := by
  rcases step_cases c with ⟨c', he, -⟩ | ends
  · rw [he] at h
    cases h
  · generalize c.step = progress at h ends
    cases ends <;> (obtain rfl := Option.some.inj h; rfl)

theorem run_of_next {c c' : Config} (h : c.step = .next c') (fuel : Nat) : run (fuel + 1) c = run fuel c' := by
  rw [run, h]

theorem run_of_result {c : Config} (h : c.step.result? = some r) (fuel : Nat) : run (fuel + 1) c = r := by
  rw [run]
  cases hs : c.step with
  | next c' =>
    rw [hs] at h
    cases h
  | accepted tree p | failed e p =>
    rw [hs] at h
    exact Option.some.inj h

/-- A run goes on after a move, or ends with it. -/
theorem next_or_result (c : Config) : (∃ c', c.step = .next c') ∨ ∃ r, c.step.result? = some r := by
  cases c.step with
  | next c' => exact .inl ⟨c', rfl⟩
  | accepted tree p | failed e p => exact .inr ⟨_, rfl⟩

theorem seen_subset_run (fuel : Nat) (c : Config) : c.parser.seen ⊆ (run fuel c).2.seen := by
  induction fuel generalizing c with
  | zero => exact List.Subset.refl _
  | succ fuel ih =>
    rcases next_or_result c with ⟨c', h⟩ | ⟨r, h⟩
    · rw [run_of_next h]
      exact List.Subset.trans (seen_of_step h) (ih c')
    · rw [run_of_result h, seen_of_result h]
      exact List.Subset.refl _

theorem result?_lower (progress : Progress) : (progress.lower d old).result? = progress.result?.map (lowerResult d old) := by
  cases progress <;> rfl

theorem step_lower_next {c' : Config} (hs : c.step = .next c') (h : c'.parser.Unseen d old) :
    (c.lower d old).step = .next (c'.lower d old) := by
  rw [step_lower d old c, hs]
  · rfl
  · intro c'' hs'
    obtain rfl := Progress.next.inj (hs.symm.trans hs')
    exact h

/-- A run further down has the same result, unless it puts off a token that the older parser put off. -/
theorem run_lower (fuel : Nat) (h : (run fuel c).2.Unseen d old) :
    run fuel (c.lower d old) = lowerResult d old (run fuel c) := by
  induction fuel generalizing c with
  | zero => rfl
  | succ fuel ih =>
    rcases next_or_result c with ⟨c', hs⟩ | ⟨r, hs⟩
    · rw [run_of_next hs] at h ⊢
      rw [run_of_next (step_lower_next d old c hs fun t ht => h t (seen_subset_run fuel c' ht))]
      exact ih c' h
    · have hstep : (c.lower d old).step.result? = some (lowerResult d old r) := by
        rw [step_lower d old c, result?_lower, hs]
        · rfl
        · intro c' hs'
          rw [hs'] at hs
          cases hs
      rw [run_of_result hs, run_of_result hstep]

/-- A run that puts off a token fails further down if the older parser put off that token. -/
theorem run_of_mem_seen (fuel : Nat) (hc : c.parser.Unseen d old) (h : ¬ (run fuel c).2.Unseen d old) :
    ∃ e p, run fuel (c.lower d old) = (.error e, p) := by
  induction fuel generalizing c with
  | zero => exact absurd hc h
  | succ fuel ih =>
    rcases next_or_result c with ⟨c', hs⟩ | ⟨r, hs⟩
    · rw [run_of_next hs] at h
      by_cases hc' : c'.parser.Unseen d old
      · rw [run_of_next (step_lower_next d old c hs hc')]
        exact ih c' hc' h
      · obtain ⟨e, p, hstep⟩ := step_of_mem_seen d old hc hs hc'
        exact ⟨e, p, by rw [run, hstep]⟩
    · rw [run_of_result hs, Parser.Unseen, seen_of_result hs] at h
      exact absurd hc h

end Config

end JsMinify
