import JsMinify.Proofs.Parser.Items
import JsMinify.Proofs.Parser.Step

/-!
# The stack of a run

The frames of a stack follow the edges of the automaton (`Stacked`), so a rule that is under way has its
first symbols on top of the stack (`Stacked.spells`). Every reduction that the tables ask for can
therefore be made, what they accept is a program, and a run never finds itself without a way on
(`Stacked.step_ne_stuck`).
-/

namespace JsMinify.Config

open Grammar Table

variable {c : Config} {i : Nat} {stack : List Frame} {r : Rule}

/-- The state on top of a stack. -/
def stateOf : List Frame → State
  | [] => 0
  | f :: _ => f.state

theorem state_eq (c : Config) : c.state = stateOf c.stack := by
  unfold state stateOf
  cases c.stack <;> rfl

/-- A stack whose frames follow the edges of the automaton, with a tree for each program. -/
inductive Stacked : List Frame → Prop where
  | nil : Stacked []
  | cons {f : Frame} {rest : List Frame} (edge : edge (stateOf rest) f.sym f.state = true)
      (program : f.sym = .n .program → ∃ tree, f.item.value = .node tree) (below : Stacked rest) :
      Stacked (f :: rest)

theorem Stacked.state_lt (h : Stacked stack) : stateOf stack < stateCount := by
  cases h with
  | nil => decide
  | cons edge _ _ => exact edge_lt edge

theorem Stacked.config_state_lt (h : Stacked c.stack) : c.state < stateCount := by
  rw [state_eq]
  exact h.state_lt

theorem Stacked.drop (h : Stacked stack) (n : Nat) : Stacked (stack.drop n) := by
  induction n generalizing stack with
  | zero => exact h
  | succ n ih =>
    cases h with
    | nil => exact .nil
    | cons _ _ below => exact ih below

/-- The symbols recognised of a rule under way stand on the stack, above a state where its left side
may be recognised. -/
theorem Stacked.spells (h : Stacked stack) {d : Nat} (hi : (i, d) ∈ underWay (stateOf stack))
    (hr : rule? i = some r) : symbols (stack.take d) = (r.right.take d).reverse ∧ wants (stateOf (stack.drop d)) r.left := by
  induction h generalizing d with
  | nil =>
    have hzero : underWay (stateOf []) = [] := by decide +kernel
    rw [hzero] at hi
    cases hi
  | @cons f rest edge _ below ih =>
    obtain ⟨r', n, rfl, hr', hx, hfirst, hlater⟩ := edge_underWay edge hi
    obtain rfl : r' = r := Option.some.inj (hr'.symm.trans hr)
    have htake : (r'.right.take (n + 1)).reverse = f.sym :: (r'.right.take n).reverse := by
      rw [List.take_add_one, hx]
      simp
    have hsym : symbols ((f :: rest).take (n + 1)) = f.sym :: symbols (rest.take n) := rfl
    rw [htake, hsym]
    by_cases hn : n = 0
    · subst hn
      exact ⟨rfl, hfirst rfl⟩
    · obtain ⟨hspell, hwants⟩ := ih (hlater (Nat.pos_of_ne_zero hn))
      exact ⟨by rw [hspell], hwants⟩

theorem Reduces.listed (h : c.Reduces i) : ∃ la, (la, i) ∈ reductions c.state := by
  rcases h with forced | ⟨-, look, -, entry⟩
  · exact mem_of_forced? forced
  · rcases move_cases entry with ⟨_, _, hm, -⟩ | ⟨hm, -⟩ | ⟨la, j, hm, hj, -⟩
    · cases hm
    · cases hm
    · obtain rfl := Move.reduce.inj hm
      exact ⟨la, hj⟩

/-- A reduction that the tables ask for can be made. -/
theorem Stacked.handle (h : Stacked c.stack) (why : c.Reduces i) : ∃ r, rule? i = some r ∧ c.Handle r ∧
      wants (stateOf (c.stack.drop r.right.length)) r.left := by
  obtain ⟨la, hla⟩ := why.listed
  rw [state_eq] at hla
  obtain ⟨r, hr, hempty, hunder⟩ := complete_cases (complete_of_reduction h.state_lt hla)
  refine ⟨r, hr, ?_⟩
  by_cases hne : r.right = []
  · refine ⟨by simp [Handle, symbols, hne], ?_⟩
    simpa [hne] using hempty hne
  · obtain ⟨hspell, hwants⟩ := h.spells (hunder hne) hr
    refine ⟨?_, hwants⟩
    unfold Handle symbols
    rw [List.map_reverse]
    rw [symbols, List.take_length] at hspell
    rw [hspell, List.reverse_reverse]

theorem reduced_state (c : Config) (r : Rule) :
    (c.reduced r).state = goto (stateOf (c.stack.drop r.right.length)) r.left := by
  show goto (Config.state _) r.left = _
  rw [state_eq]

/-- The left side of a rule leads along an edge. -/
theorem Stacked.edge_reduced (h : Stacked c.stack) (why : c.Reduces i) (rule : rule? i = some r) :
    edge (stateOf (c.stack.drop r.right.length)) (.n r.left) (c.reduced r).state := by
  obtain ⟨r', hr', -, hwants⟩ := h.handle why
  obtain rfl : r' = r := Option.some.inj (hr'.symm.trans rule)
  rw [reduced_state]
  exact edge_of_goto (h.drop r'.right.length).state_lt (mem_rules_of_rule? rule) hwants

/-- A program is built as a node. -/
theorem program_made : ∀ r ∈ rules, r.left = .program → r.action matches .make .. := by decide +kernel

theorem program_value (hr : r ∈ rules) (hp : r.left = .program) (args : List Item) :
    ∃ tree, r.action.run args = .node tree := by
  have hmade := program_made r hr hp
  split at hmade
  · next heq =>
    rw [heq]
    exact ⟨_, rfl⟩
  · cases hmade

/-- A step leaves a stack that follows the edges of the automaton. -/
theorem Stacked.step {c' : Config} (h : Stacked c.stack) (hs : c.step = .next c') : Stacked c'.stack := by
  cases goes_of_step hs with
  | reduce why rule _ =>
    refine .cons (h.edge_reduced why rule) (fun hp => ?_) (h.drop _)
    exact program_value (mem_rules_of_rule? rule) (Sym.n.inj hp) _
  | read _ _ _ => exact h
  | shift _ _ entry =>
    rcases move_cases entry with ⟨kind, t, hm, hk, hmem⟩ | ⟨hm, -⟩ | ⟨_, _, hm, -⟩
    · obtain rfl := Move.shift.inj hm
      cases hk
      rw [state_eq] at hmem
      exact .cons (edge_of_shift h.state_lt hmem) (fun hp => by cases hp) h
    · cases hm
    · cases hm
  | putOff _ _ _ _ _ => exact h

theorem After.stacked {n : Nat} {c' : Config} (h : After n c c') (start : Stacked c.stack) : Stacked c'.stack :=
  h.keeps (I := fun c => Stacked c.stack) (fun _ _ => Stacked.step) start

/-- What is on the stack at the end is the tree of a program. -/
theorem Stacked.accept (h : Stacked c.stack) (hs : c.state = acceptState) : ∃ tree, c.accept = .accepted tree c.parser := by
  rw [state_eq] at hs
  unfold Config.accept
  generalize c.stack = stack at h hs
  cases h with
  | nil => cases hs
  | @cons f rest edge program _ =>
    have hentry : some (Sym.n .program) = some f.sym := by
      have := edge_entry edge
      rwa [show f.state = acceptState from hs, entry, if_pos rfl] at this
    obtain ⟨tree, htree⟩ := program (Option.some.inj hentry).symm
    obtain ⟨s, sym, value, line⟩ := f
    cases hentry
    obtain rfl : value = .node tree := htree
    exact ⟨tree, rfl⟩

/-- A run always has a way on, or ends with a tree or an error that tells what is wrong. -/
theorem Stacked.step_ne_stuck (h : Stacked c.stack) (p : Parser) : c.step ≠ .failed .stuck p := by
  intro hs
  generalize hp : Progress.failed .stuck p = progress at hs
  cases ends_of_step hs (fun _ hn => by rw [hn] at hp; cases hp) with
  | accepted | unreadable => cases hp
  | rejected _ error => rcases error with ⟨_, _, rfl⟩ | ⟨_, _, _, rfl⟩ <;> cases hp
  | noHandle why handle =>
    obtain ⟨r, hr, hh, -⟩ := h.handle why
    exact handle r hr hh
  | noTree state tree =>
    obtain ⟨tree', he⟩ := h.accept state
    rw [he] at tree
    cases tree

end JsMinify.Config
