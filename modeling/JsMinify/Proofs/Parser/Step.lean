import JsMinify.Parser

/-!
# What a move of the parser does

`Moves` lists the moves of the automaton with what the tables say when each is made, and `step_moves`
says that there are no others. `Goes` lists the moves that a run goes on after, with what each leaves
behind, and `Ends` those that it ends with; every fact about a run is proved from `step_cases`. `After`
counts moves, and `run_cases` ties it to `Config.run`.
-/

variable {i : Nat}

namespace JsMinify.Grammar.Table

theorem ruleIn_eq (gs : List (List Rule)) (i : Nat) : ruleIn gs i = gs.flatten[i]? := by
  induction gs generalizing i with
  | nil => rfl
  | cons g gs ih =>
    rw [ruleIn, List.flatten_cons, ih]
    split
    · next h => exact (List.getElem?_append_left h).symm
    · next h => exact (List.getElem?_append_right (Nat.le_of_not_lt h)).symm

theorem rule?_eq (i : Nat) : rule? i = rules[i]? := by
  unfold rule?
  exact ruleIn_eq ruleGroups i

theorem mem_rules_of_rule? {r : Rule} (h : rule? i = some r) : r ∈ rules := by
  rw [rule?_eq] at h
  exact List.mem_of_getElem? h

variable {s : State}

/-- What a state does in any case is one of its reductions. -/
theorem mem_of_forced? (h : forced? s = some i) : ∃ la, (la, i) ∈ reductions s := by
  unfold forced? at h
  split at h
  · next la rule _ hr =>
    split at h
    · cases h
      exact ⟨la, by simp [hr]⟩
    · cases h
  · cases h

/-- Where an entry of the tables comes from. -/
theorem move_cases {k : Option TokenKind} {m : Move} (h : move s k = some m) :
    (∃ kind t, m = .shift t ∧ k = some kind ∧ (kind, t) ∈ shifts s) ∨ (m = .accept ∧ s = acceptState ∧ k = none) ∨
      (∃ la i, m = .reduce i ∧ (la, i) ∈ reductions s ∧ la.allows k) := by
  unfold move at h
  split at h
  · next t hl =>
    obtain ⟨kind, rfl, hk⟩ := Option.bind_eq_some_iff.1 hl
    obtain ⟨l₁, l₂, hs, -⟩ := List.lookup_eq_some_iff.1 hk
    exact .inl ⟨kind, t, (Option.some.inj h).symm, rfl, by simp [hs]⟩
  · split at h
    · next ha =>
      simp only [Bool.and_eq_true, decide_eq_true_eq, Option.isNone_iff_eq_none] at ha
      exact .inr (.inl ⟨(Option.some.inj h).symm, ha⟩)
    · obtain ⟨r, hr, rfl⟩ := Option.map_eq_some_iff.1 h
      have ha := List.find?_some hr
      exact .inr (.inr ⟨r.1, r.2, rfl, List.mem_of_find?_eq_some hr, ha⟩)

end JsMinify.Grammar.Table

namespace JsMinify

/-- What a run that was accepted or failed ends with. -/
def Progress.result? : Progress → Option (Except ParseError Node × Parser)
  | .next _ => none
  | .accepted tree p => some (.ok tree, p)
  | .failed e p => some (.error e, p)

namespace Config

open Grammar

/-- The moves of a run, by what the tables say about the state and the next token. -/
inductive Moves (c : Config) : Progress → Prop where
  | forced {i : Nat} (rule : Table.forced? c.state = some i) : Moves c (c.reduce i)
  | read (free : Table.forced? c.state = none) (unread : c.ahead = none) : Moves c c.read
  | shift {t : Token} {s : State} (free : Table.forced? c.state = none)
      (look : c.ahead = some (some t)) (entry : Table.move c.state (some t.kind) = some (.shift s)) :
      Moves c (c.shift t s)
  | reduce {look : Option Token} {i : Nat} (free : Table.forced? c.state = none)
      (ahead : c.ahead = some look)
      (entry : Table.move c.state (look.map (·.kind)) = some (.reduce i)) : Moves c (c.reduce i)
  | accept {look : Option Token} (free : Table.forced? c.state = none) (ahead : c.ahead = some look)
      (entry : Table.move c.state (look.map (·.kind)) = some .accept) : Moves c c.accept
  | recover {look : Option Token} (free : Table.forced? c.state = none) (ahead : c.ahead = some look)
      (entry : Table.move c.state (look.map (·.kind)) = none) : Moves c (c.recover look)

theorem step_moves (c : Config) : Moves c c.step := by
  cases free : Table.forced? c.state with
  | some i =>
    rw [step, free]
    exact .forced free
  | none =>
    cases ahead : c.ahead with
    | none =>
      rw [step, free, ahead]
      exact .read free ahead
    | some look =>
      cases entry : Table.move c.state (look.map (·.kind)) with
      | none =>
        simp only [step, free, ahead, entry]
        exact .recover free ahead entry
      | some m =>
        cases m with
        | shift s =>
          cases look with
          | none =>
            rcases Table.move_cases entry with ⟨_, _, -, hk, -⟩ | ⟨hm, -⟩ | ⟨_, _, hm, -⟩
            · cases hk
            · cases hm
            · cases hm
          | some t =>
            simp only [step, free, ahead, entry]
            exact .shift free ahead entry
        | reduce i =>
          simp only [step, free, ahead, entry]
          exact .reduce free ahead entry
        | accept =>
          simp only [step, free, ahead, entry]
          exact .accept free ahead entry

/-- The run after a reduction by a rule. -/
def reduced (c : Config) (r : Rule) : Config :=
  let items := ((c.stack.take r.right.length).reverse).map (·.item)
  let rest := c.stack.drop r.right.length
  let line := match items with
    | first :: _ => first.line
    | [] => c.parser.lexer.line
  { c with
    stack := ⟨Table.goto (Config.state { c with stack := rest }) r.left, .n r.left, ⟨r.action.run items, line⟩⟩ :: rest }

def symbols (stack : List Frame) : List Sym := stack.map (·.sym)

/-- The right side of a rule stands on the stack. -/
def Handle (c : Config) (r : Rule) : Prop :=
  symbols ((c.stack.take r.right.length).reverse) = r.right

theorem reduce_cases (c : Config) (i : Nat) : (∃ r, Table.rule? i = some r ∧ c.Handle r ∧ c.reduce i = .next (c.reduced r)) ∨
      (c.reduce i = .failed .stuck c.parser ∧ ∀ r, Table.rule? i = some r → ¬ c.Handle r) := by
  unfold reduce
  cases hr : Table.rule? i with
  | none => exact .inr ⟨rfl, by simp⟩
  | some r =>
    by_cases h : c.Handle r
    · exact .inl ⟨r, rfl, h, if_pos h⟩
    · exact .inr ⟨if_neg h, fun r' hr' => by obtain rfl := Option.some.inj hr'; exact h⟩

theorem read_cases (c : Config) : (∃ t l, c.parser.lexer.token = (.ok t, l) ∧
      c.read = .next { c with parser := { c.parser with lexer := l }, ahead := some t }) ∨
    (∃ e l, c.parser.lexer.token = (.error e, l) ∧ c.read = .failed (.lex e) { c.parser with lexer := l }) := by
  unfold read
  rcases h : c.parser.lexer.token with ⟨e | t, l⟩
  · exact .inr ⟨e, l, rfl, rfl⟩
  · exact .inl ⟨t, l, rfl, rfl⟩

/-- A token does not fit, or what comes after it cannot be read. -/
def Refuses (c : Config) (t : Token) (e : ParseError) : Prop :=
  (∃ before after, e = .unexpected t before after) ∨ ∃ e' l, c.parser.lexer.token = (.error e', l) ∧ e = .lex e'

theorem reject_cases (c : Config) (t : Token) :
    ∃ e, c.reject t = .failed e { c.parser with lexer := c.parser.lexer.token.2 } ∧ c.Refuses t e := by
  unfold reject
  rcases htoken : c.parser.lexer.token with ⟨e | after, l⟩
  · exact ⟨_, rfl, .inr ⟨e, l, htoken, rfl⟩⟩
  · exact ⟨_, rfl, .inl ⟨_, _, rfl⟩⟩

/-- The run after a made up semicolon was put before what did not fit. -/
def putOffBy (c : Config) (t : Option Token) : Config :=
  { c with
    parser :=
      { lexer := ({ c.parser.lexer with pushed := t.toList ++ c.parser.lexer.pushed }.makeSemi t).2
        seen := t.toList ++ c.parser.seen }
    ahead := some (some ({ c.parser.lexer with pushed := t.toList ++ c.parser.lexer.pushed }.makeSemi t).1) }

theorem putOff_eq (c : Config) (t : Option Token) :
    c.putOff t = if c.parser.lexer.semiAllowed t then some (.next (c.putOffBy t)) else none := by
  unfold putOff Lexer.autoSemi
  by_cases h : c.parser.lexer.semiAllowed t <;> simp [h, putOffBy]

/-- What does not fit is either put off, or is a token at which the run ends. -/
theorem recover_cases (c : Config) (look : Option Token) :
    (c.parser.lexer.semiAllowed look ∧ (∀ t, look = some t → t ∉ c.parser.seen ∧ t.kind ≠ .semi) ∧
      c.recover look = .next (c.putOffBy look)) ∨
    (∃ t, look = some t ∧ c.recover look = c.reject t ∧
      (t ∈ c.parser.seen ∨ t.kind = .semi ∨ ¬ c.parser.lexer.semiAllowed look)) := by
  cases look with
  | none =>
    refine .inl ⟨rfl, by simp, ?_⟩
    simp [recover, putOff_eq, Lexer.semiAllowed]
  | some t =>
    by_cases hs : c.parser.seen.contains t || t.kind = .semi
    · refine .inr ⟨t, rfl, by simp only [recover]; rw [if_pos hs], ?_⟩
      rcases Bool.or_eq_true _ _ ▸ hs with h | h
      · exact .inl (List.contains_iff_mem.1 h)
      · exact .inr (.inl (of_decide_eq_true h))
    · have hn : t ∉ c.parser.seen ∧ t.kind ≠ .semi := by simpa using hs
      by_cases ha : c.parser.lexer.semiAllowed (some t)
      · refine .inl ⟨ha, fun u hu => by obtain rfl := Option.some.inj hu; exact hn, ?_⟩
        simp only [recover]
        rw [if_neg hs, putOff_eq, if_pos ha]
        rfl
      · refine .inr ⟨t, rfl, ?_, .inr (.inr ha)⟩
        simp only [recover]
        rw [if_neg hs, putOff_eq, if_neg ha]
        rfl

theorem accept_cases (c : Config) : (∃ f rest tree, c.stack = f :: rest ∧ f.sym = .n .program ∧ f.item.value = .node tree ∧
      c.accept = .accepted tree c.parser) ∨
    c.accept = .failed .stuck c.parser := by
  unfold accept
  split
  · next hs => exact .inl ⟨_, _, _, hs, rfl, rfl, rfl⟩
  · exact .inr rfl

/-- The tables ask for a reduction: in any case, or before what follows. -/
def Reduces (c : Config) (i : Nat) : Prop :=
  Table.forced? c.state = some i ∨ Table.forced? c.state = none ∧
      ∃ look, c.ahead = some look ∧ Table.move c.state (look.map (·.kind)) = some (.reduce i)

/-- The moves that a run goes on after. -/
inductive Goes (c : Config) : Config → Prop where
  | reduce {i : Nat} {r : Rule} (why : c.Reduces i) (rule : Table.rule? i = some r)
      (handle : c.Handle r) : Goes c (c.reduced r)
  | read {t : Option Token} {l : Lexer} (free : Table.forced? c.state = none)
      (unread : c.ahead = none) (token : c.parser.lexer.token = (.ok t, l)) :
      Goes c { c with parser := { c.parser with lexer := l }, ahead := some t }
  | shift {t : Token} {s : State} (free : Table.forced? c.state = none)
      (look : c.ahead = some (some t)) (entry : Table.move c.state (some t.kind) = some (.shift s)) :
      Goes c { c with stack := ⟨s, .t t.kind, ⟨.token t, t.line⟩⟩ :: c.stack, ahead := none }
  | putOff {look : Option Token} (free : Table.forced? c.state = none) (ahead : c.ahead = some look)
      (entry : Table.move c.state (look.map (·.kind)) = none)
      (allowed : c.parser.lexer.semiAllowed look)
      (fresh : ∀ t, look = some t → t ∉ c.parser.seen ∧ t.kind ≠ .semi) : Goes c (c.putOffBy look)

/-- The moves that a run ends with. -/
inductive Ends (c : Config) : Progress → Prop where
  | accepted {f : Frame} {rest : List Frame} {tree : Node} (ahead : c.ahead = some none)
      (stack : c.stack = f :: rest) (sym : f.sym = .n .program) (value : f.item.value = .node tree) :
      Ends c (.accepted tree c.parser)
  | unreadable {e : LexError} {l : Lexer} (unread : c.ahead = none)
      (token : c.parser.lexer.token = (.error e, l)) :
      Ends c (.failed (.lex e) { c.parser with lexer := l })
  | rejected {t : Token} {e : ParseError} (ahead : c.ahead = some (some t)) (error : c.Refuses t e) :
      Ends c (.failed e { c.parser with lexer := c.parser.lexer.token.2 })
  | noHandle {i : Nat} (why : c.Reduces i) (handle : ∀ r, Table.rule? i = some r → ¬ c.Handle r) :
      Ends c (.failed .stuck c.parser)
  | noTree (state : c.state = Table.acceptState) (tree : c.accept = .failed .stuck c.parser) :
      Ends c (.failed .stuck c.parser)

variable {c : Config}

theorem Reduces.cases (why : c.Reduces i) : (∃ c', c.reduce i = .next c' ∧ Goes c c') ∨ Ends c (c.reduce i) := by
  rcases reduce_cases c i with ⟨r, rule, handle, he⟩ | ⟨he, handle⟩
  · exact .inl ⟨_, he, .reduce why rule handle⟩
  · rw [he]
    exact .inr (.noHandle why handle)

/-- A run goes on after a move, or ends with it. -/
theorem step_cases (c : Config) : (∃ c', c.step = .next c' ∧ Goes c c') ∨ Ends c c.step := by
  have hm := step_moves c
  generalize c.step = progress at hm
  cases hm with
  | forced rule => exact Reduces.cases (.inl rule)
  | read free unread =>
    rcases read_cases c with ⟨t, l, token, he⟩ | ⟨e, l, token, he⟩
    · exact .inl ⟨_, he, .read free unread token⟩
    · rw [he]
      exact .inr (.unreadable unread token)
  | shift free look entry => exact .inl ⟨_, rfl, .shift free look entry⟩
  | reduce free ahead entry => exact Reduces.cases (.inr ⟨free, _, ahead, entry⟩)
  | accept free ahead entry =>
    rcases Table.move_cases entry with ⟨_, _, hm, -⟩ | ⟨-, state, hk⟩ | ⟨_, _, hm, -⟩
    · cases hm
    · obtain rfl := Option.map_eq_none_iff.1 hk
      rcases accept_cases c with ⟨f, rest, tree, stack, sym, value, he⟩ | he
      · rw [he]
        exact .inr (.accepted ahead stack sym value)
      · rw [he]
        exact .inr (.noTree state he)
    · cases hm
  | @recover look free ahead entry =>
    rcases recover_cases c look with ⟨allowed, fresh, he⟩ | ⟨t, rfl, he, -⟩
    · exact .inl ⟨_, he, .putOff free ahead entry allowed fresh⟩
    · obtain ⟨e, hj, error⟩ := reject_cases c t
      rw [he, hj]
      exact .inr (.rejected ahead error)

variable {c' : Config}

/-- A step that leads on is one of the moves. -/
theorem goes_of_step (h : c.step = .next c') : Goes c c' := by
  rcases step_cases c with ⟨c'', he, goes⟩ | ends
  · obtain rfl := Progress.next.inj (h.symm.trans he)
    exact goes
  · rw [h] at ends
    cases ends

/-- A step that does not is one of the ends. -/
theorem ends_of_step {progress : Progress} (h : c.step = progress) (last : ∀ c', progress ≠ .next c') : Ends c progress := by
  rcases step_cases c with ⟨c', he, -⟩ | ends
  · exact absurd (h.symm.trans he) (last c')
  · rwa [h] at ends

/-! ## Runs -/

/-- A number of moves leads from one state of a run to another. -/
inductive After : Nat → Config → Config → Prop where
  | zero (c : Config) : After 0 c c
  | next {n : Nat} {c c' c'' : Config} (first : c.step = .next c') (rest : After n c' c'') :
      After (n + 1) c c''

/-- What every move keeps is kept by a run. -/
theorem After.keeps {I : Config → Prop} (step : ∀ c c', I c → c.step = .next c' → I c') {n : Nat}
    (h : After n c c') (start : I c) : I c' := by
  induction h with
  | zero => exact start
  | next first _ ih => exact ih (step _ _ start first)

/-- A run ends by a last move, or it is still going on when its moves are used up. -/
theorem run_cases (fuel : Nat) (c : Config) : (∃ n c', n < fuel ∧ After n c c' ∧ c'.step.result? = some (run fuel c)) ∨
      (∃ c', After fuel c c' ∧ run fuel c = (.error .stuck, c'.parser)) := by
  induction fuel generalizing c with
  | zero => exact .inr ⟨c, .zero c, rfl⟩
  | succ fuel ih =>
    cases h : c.step with
    | next c' =>
      have hr : run (fuel + 1) c = run fuel c' := by rw [run, h]
      rw [hr]
      rcases ih c' with ⟨n, c'', hn, ha, he⟩ | ⟨c'', ha, he⟩
      · exact .inl ⟨n + 1, c'', by omega, .next h ha, he⟩
      · exact .inr ⟨c'', .next h ha, he⟩
    | accepted tree p | failed e p => exact .inl ⟨0, c, by omega, .zero c, by rw [run, h]; rfl⟩

/-- A tree comes out of a run only by acceptance. -/
theorem accepted_of_run {fuel : Nat} {tree : Node} {p : Parser} (h : run fuel c = (.ok tree, p)) :
    ∃ n c', n < fuel ∧ After n c c' ∧ c'.step = .accepted tree p := by
  rcases run_cases fuel c with ⟨n, c', hn, ha, he⟩ | ⟨c', -, he⟩
  · refine ⟨n, c', hn, ha, ?_⟩
    rw [h] at he
    cases hs : c'.step with
    | next d => simp [hs, Progress.result?] at he
    | accepted tree' p' => simpa [hs, Progress.result?] using he
    | failed e p' => simp [hs, Progress.result?] at he
  · simp [h] at he

end Config

end JsMinify
