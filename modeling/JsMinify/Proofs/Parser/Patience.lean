import JsMinify.Proofs.Lexer.Lexemes
import JsMinify.Proofs.Parser.Stack

/-!
# Semicolons made up in a row

The end of the text, and tokens whose line changes when they come again, can be put off by a semicolon
more than once. `Table.patience` bounds how often in a row, state by state: no reduction raises it, and
the semicolon itself lowers it. `Table.calm` checks this of the tables.
-/

namespace JsMinify

variable {p q : Grammar.State} {c : Config} {i : Nat} {r : Grammar.Rule}

/-- What can be put off more than once: the end of the text, and the tokens that may hold a line break. -/
def TokenKind.lasting : Option TokenKind → Bool
  | none => true
  | some k => k.mayBreak && !k.isTrivia

namespace Grammar

/-- How many semicolons can still be made up in a row: while what they are put before is next, and while
one of them is. -/
structure Patience where
  held : Nat
  semi : Nat
  deriving DecidableEq

/-- The patience of the states after a nonterminal. After a statement a semicolon is a statement of its
own, but nothing lasting is put off there. -/
def Nonterminal.patience : Nonterminal → Patience
  | .statement | .sourceElement | .sourceElementList | .block | .varStatement | .emptyStatement
  | .exprStatement | .ifStatement | .iteration | .continueStatement | .breakStatement
  | .returnStatement | .withStatement | .switchStatement | .labelled | .throwStatement
  | .tryStatement | .debuggerStatement | .functionDecl | .caseBlock | .catchClause
  | .finallyClause => ⟨0, 1⟩
  | .program | .sourceElements | .functionBody | .caseClause | .caseClauses | .caseClausesOpt
  | .defaultClause => ⟨0, 0⟩
  | .exprOpt .plain => ⟨1, 1⟩
  | _ => ⟨2, 2⟩

theorem Nonterminal.patience_le (A : Nonterminal) : A.patience.held ≤ 2 ∧ A.patience.semi ≤ 2 := by
  unfold patience
  split <;> decide

namespace Table

/-- States with another patience than their symbol: after an empty part, within the header of a loop,
before the `while` of a loop and after a tried block. -/
def patienceOf : List (State × Patience) :=
  [(50, ⟨0, 0⟩), (111, ⟨0, 0⟩), (148, ⟨0, 0⟩), (354, ⟨1, 1⟩), (425, ⟨1, 1⟩),
    (435, ⟨1, 1⟩), (476, ⟨0, 0⟩), (489, ⟨0, 0⟩), (499, ⟨0, 0⟩)]

/-- The patience of a state. -/
def patience (q : State) : Patience :=
  (patienceOf.lookup q).getD (match entry q with
    | some (.n A) => A.patience
    | some (.t .semi) => ⟨0, 1⟩
    | _ => ⟨2, 2⟩)

/-- A bound for the patience after a reduction. -/
def patienceAfter (q : State) (i : Nat) : Patience :=
  match rule? i with
  | none => ⟨0, 0⟩
  | some r => if r.right = [] then patience (goto q r.left) else r.left.patience

/-- The kinds that can be put off more than once, and the end of the text. -/
def lastingKinds : List (Option TokenKind) := [none, some .string, some .regex, some .number]

/-- A move before something lasting does not raise the patience. -/
def calmBefore (q : State) (k : Option TokenKind) : Bool :=
  match move q k with
  | none => (patience q).semi ≤ (patience q).held
  | some (.reduce i) => (patienceAfter q i).held ≤ (patience q).held
  | _ => true

/-- A move before a semicolon does not raise the patience, and a shift lowers it. -/
def calmBeforeSemi (q : State) : Bool :=
  match move q (some .semi) with
  | some (.shift p) => (patience p).held < (patience q).semi
  | some (.reduce i) => (patienceAfter q i).semi ≤ (patience q).semi
  | _ => true

/-- The moves of a state do not raise the patience. -/
def calmAt (q : State) : Bool :=
  match forced? q with
  | some i =>
    (patienceAfter q i).held ≤ (patience q).held && (patienceAfter q i).semi ≤ (patience q).semi
  | none => lastingKinds.all (calmBefore q) && calmBeforeSemi q

theorem calm : ∀ q < stateCount, patience q = ⟨2, 2⟩ ∨ calmAt q := by decide +kernel

/-- The exceptions are below the patience of their symbols. -/
theorem patienceOf_le : ∀ e ∈ patienceOf, e.2.held ≤ 1 ∧ e.2.semi ≤ 1 ∧ (match entry e.1 with
    | some (.n A) => e.2.held ≤ A.patience.held ∧ e.2.semi ≤ A.patience.semi
    | _ => true : Bool) := by
  decide +kernel

/-! ## What the checks say -/

theorem patienceOf_spec {b : Patience} (h : patienceOf.lookup q = some b) : b.held ≤ 1 ∧ b.semi ≤ 1 ∧
      ∀ A, entry q = some (.n A) → b.held ≤ A.patience.held ∧ b.semi ≤ A.patience.semi := by
  obtain ⟨l₁, l₂, hs, -⟩ := List.lookup_eq_some_iff.1 h
  have hm : (q, b) ∈ patienceOf := by simp [hs]
  obtain ⟨hheld, hsemi, hb⟩ := patienceOf_le (q, b) hm
  refine ⟨hheld, hsemi, fun A hA => ?_⟩
  simp only [hA] at hb
  exact of_decide_eq_true hb

theorem patience_le (q : State) : (patience q).held ≤ 2 ∧ (patience q).semi ≤ 2 := by
  unfold patience
  cases hl : patienceOf.lookup q with
  | some b =>
    obtain ⟨hh, hs, -⟩ := patienceOf_spec hl
    exact ⟨Nat.le_succ_of_le hh, Nat.le_succ_of_le hs⟩
  | none =>
    simp only [Option.getD_none]
    split
    · exact Nonterminal.patience_le _
    · decide
    · decide

theorem patience_le_of_entry {A : Nonterminal} (h : entry p = some (.n A)) :
    (patience p).held ≤ A.patience.held ∧ (patience p).semi ≤ A.patience.semi := by
  unfold patience
  cases hl : patienceOf.lookup p with
  | some b => exact (patienceOf_spec hl).2.2 A h
  | none =>
    rw [h]
    exact ⟨Nat.le_refl _, Nat.le_refl _⟩

theorem patience_of_semi (h : entry p = some (.t .semi)) : (patience p).held ≤ 1 := by
  unfold patience
  cases hl : patienceOf.lookup p with
  | some b => exact (patienceOf_spec hl).1
  | none =>
    rw [h]
    exact Nat.zero_le _

variable {k : Option TokenKind}

theorem mem_lastingKinds (h : TokenKind.lasting k) : k ∈ lastingKinds := by
  cases k with
  | none => decide
  | some k =>
    revert h
    cases k <;> decide

/-- Where something lasting does not fit, the patience with a semicolon is no greater. -/
theorem patience_putOff (hq : q < stateCount) (free : forced? q = none)
    (hk : TokenKind.lasting k) (entry : move q k = none) : (patience q).semi ≤ (patience q).held := by
  rcases calm q hq with h2 | hc
  · rw [h2]
  · simp only [calmAt, free, Bool.and_eq_true] at hc
    have hb := List.all_eq_true.1 hc.1 k (mem_lastingKinds hk)
    simpa only [calmBefore, entry, decide_eq_true_eq] using hb

/-- A semicolon that is shifted lowers the patience. -/
theorem patience_shift (hq : q < stateCount) (free : forced? q = none) (entry : move q (some .semi) = some (.shift p)) :
    (patience p).held < (patience q).semi := by
  rcases calm q hq with h2 | hc
  · rcases move_cases entry with ⟨k, t, hm, hk, hmem⟩ | ⟨hm, -⟩ | ⟨_, _, hm, -⟩
    · obtain rfl := Move.shift.inj hm
      cases hk
      rw [h2]
      exact Nat.lt_succ_of_le (patience_of_semi (edge_entry (edge_of_shift hq hmem)))
    · cases hm
    · cases hm
  · simp only [calmAt, free, Bool.and_eq_true] at hc
    simpa only [calmBeforeSemi, entry, decide_eq_true_eq] using hc.2

end Table

end Grammar

namespace Config

open Grammar

def patience (c : Config) : Patience := Table.patience c.state

theorem patience_le (c : Config) : c.patience.held ≤ 2 ∧ c.patience.semi ≤ 2 :=
  Table.patience_le c.state

/-- After a reduction the patience is within the bound for the rule. -/
theorem Stacked.patience_reduced (h : Stacked c.stack) (why : c.Reduces i) (rule : Table.rule? i = some r) :
    (c.reduced r).patience.held ≤ (Table.patienceAfter c.state i).held ∧
      (c.reduced r).patience.semi ≤ (Table.patienceAfter c.state i).semi := by
  unfold patience Table.patienceAfter
  rw [rule]
  simp only
  split
  · next hempty =>
    rw [reduced_state, hempty, state_eq]
    exact ⟨Nat.le_refl _, Nat.le_refl _⟩
  · exact Table.patience_le_of_entry (Table.edge_entry (h.edge_reduced why rule))

/-- A reduction before something lasting, or in any case, does not raise the patience with it; nor does one before a
semicolon raise the patience with that. -/
theorem Stacked.patience_kept (h : Stacked c.stack) (why : c.Reduces i) (rule : Table.rule? i = some r) :
    ((∀ look, c.ahead = some look → TokenKind.lasting (look.map (·.kind))) → (c.reduced r).patience.held ≤ c.patience.held) ∧
      ((∀ look, c.ahead = some look → look.map (·.kind) = some .semi) →
        (c.reduced r).patience.semi ≤ c.patience.semi) := by
  rcases Table.calm _ h.config_state_lt with h2 | hc
  · rw [show c.patience = ⟨2, 2⟩ from h2]
    exact ⟨fun _ => (patience_le _).1, fun _ => (patience_le _).2⟩
  · obtain ⟨hheld, hsemi⟩ := h.patience_reduced why rule
    unfold Table.calmAt at hc
    rcases why with forced | ⟨free, look, ahead, entry⟩
    · simp only [forced, Bool.and_eq_true, decide_eq_true_eq] at hc
      exact ⟨fun _ => Nat.le_trans hheld hc.1, fun _ => Nat.le_trans hsemi hc.2⟩
    · simp only [free, Bool.and_eq_true] at hc
      refine ⟨fun hk => Nat.le_trans hheld ?_, fun hk => Nat.le_trans hsemi ?_⟩
      · have hb := List.all_eq_true.1 hc.1 _ (Table.mem_lastingKinds (hk look ahead))
        simpa only [Table.calmBefore, entry, decide_eq_true_eq, patience] using hb
      · rw [hk look ahead] at entry
        simpa only [Table.calmBeforeSemi, entry, decide_eq_true_eq, patience] using hc.2

end Config

end JsMinify
