import JsMinify.Proofs.Lexer.Drained
import JsMinify.Proofs.Parser.Insertion
import JsMinify.Proofs.Parser.Lower

/-!
# Using a parser again

A parser that has parsed some texts keeps the line it came to, the tokens it put off and the illegal
characters it met, and nothing else that counts (`Parser.Rested`): no token is pushed back and none is
remembered as the last one. So it parses the next text as a new parser does, further down
(`Rested.parse_eq`), until it would put off a token that it put off before. `parse_again_iff` says when that
happens: a token of the new text has the kind, the text, the line and the position of one put off earlier.
-/

namespace JsMinify

open Grammar Config

variable {p : Parser} {u : String}

/-- A parser between two texts: nothing of the last one is pushed back or remembered. -/
structure Parser.Rested (p : Parser) : Prop where
  pushed : p.lexer.pushed = []
  cur : p.lexer.cur = none
  mode : p.lexer.mode = .ordinary
  line : 1 ≤ p.lexer.line

namespace Config

/-- What a run keeps of the lexer, so that it is at rest when the text has ended. -/
structure Settled (c : Config) : Prop where
  loaded : c.parser.lexer.loaded = true
  mode : c.parser.lexer.mode = .ordinary
  line : 1 ≤ c.parser.lexer.line
  ended : c.ahead = some none → c.parser.lexer.cur = none

/-- Each step keeps this. -/
theorem Settled.step {c c' : Config} (hc : c.Settled) (h : c.step = .next c') : c'.Settled := by
  cases goes_of_step h with
  | reduce => exact ⟨hc.loaded, hc.mode, hc.line, hc.ended⟩
  | read _ _ token =>
    have hs := Lexer.token_settles hc.mode token
    exact ⟨hs.loaded.trans hc.loaded, hs.mode, Nat.le_trans hc.line hs.line, fun he => hs.cur (Option.some.inj he)⟩
  | shift => exact ⟨hc.loaded, hc.mode, hc.line, by simp⟩
  | @putOff look =>
    refine ⟨?_, ?_, ?_, by simp [putOffBy]⟩
    · cases look <;> exact hc.loaded
    · cases look <;> exact hc.mode
    · cases look with
      | none => exact hc.line
      | some t => exact Nat.le_trans hc.line (Nat.le_add_right _ _)

end Config

theorem start_settled (text : String) : (Config.start text).Settled := ⟨rfl, rfl, Nat.le_refl 1, nofun⟩

/-- A new parser is at rest after a text that has a tree. -/
theorem rested_of_parse {tree : Node} (h : parse u = (.ok tree, p)) : p.Rested := by
  have hpushed := parse_pushed u
  rw [h] at hpushed
  obtain ⟨n, c, -, hafter, hs⟩ := accepted_of_run h
  have hc : c.Settled := hafter.keeps (fun _ _ => Config.Settled.step) (start_settled u)
  cases ends_of_step hs (fun _ => Progress.noConfusion) with
  | accepted ahead => exact ⟨hpushed, hc.ended ahead, hc.mode, hc.line⟩

/-! ## The next text -/

namespace Parser

theorem rested_new : ({} : Parser).Rested := ⟨rfl, rfl, rfl, Nat.le_refl 1⟩

theorem Rested.lower (h : p.Rested) (d : Nat) (old : Parser) : (p.lower d old).Rested where
  pushed := by rw [Parser.lower, Lexer.lower, h.pushed, List.map_nil]
  cur := by rw [Parser.lower, Lexer.lower, h.cur, Option.map_none]
  mode := h.mode
  line := Nat.le_trans h.line (Nat.le_add_right _ _)

/-- How many lines the texts parsed so far went down. -/
def passed (p : Parser) : Nat := p.lexer.line - 1

theorem forced?_start : Table.forced? 0 = none := by decide +kernel

/-- A parser at rest parses a text as a new one does, further down. -/
theorem Rested.parse_eq (h : p.Rested) (u : String) :
    p.parse u = run (budget u.length) ((Config.start u).lower p.passed p) := by
  have htoken : (p.lexer.input u).token = ((Config.start u).lower p.passed p).parser.lexer.token :=
    Lexer.AtRest.token_input ⟨h.pushed, h.cur, h.mode⟩ (Nat.add_sub_of_le h.line).symm u
  have hread : Config.read { parser := { p with lexer := p.lexer.input u } } = ((Config.start u).lower p.passed p).read := by
    unfold Config.read
    rw [htoken]
    rcases ((Config.start u).lower p.passed p).parser.lexer.token with ⟨e | t, l⟩ <;> rfl
  have hstep : step { parser := { p with lexer := p.lexer.input u } } = ((Config.start u).lower p.passed p).step := by
    have hforced : Table.forced? ((Config.start u).lower p.passed p).state = none := forced?_start
    have hforced' : Table.forced? (state { parser := { p with lexer := p.lexer.input u } }) = none :=
      forced?_start
    unfold step
    rw [hforced, hforced']
    exact hread
  have hbudget : budget u.length = 200 * (u.length + 5) - 1 + 1 := by
    unfold budget
    omega
  unfold Parser.parse
  rw [hbudget, run, run, hstep]

theorem Rested.parse_of_unseen (h : p.Rested) (hu : (JsMinify.parse u).2.Unseen p.passed p) :
    p.parse u = lowerResult p.passed p (JsMinify.parse u) := by
  rw [h.parse_eq]
  exact run_lower p.passed p (Config.start u) _ hu

theorem Rested.parse_of_seen (h : p.Rested) (hu : ¬ (JsMinify.parse u).2.Unseen p.passed p) :
    ∃ e p', p.parse u = (.error e, p') := by
  rw [h.parse_eq]
  exact run_of_mem_seen p.passed p (Config.start u) _ (by simp [Config.start, Unseen]) hu

/-- A parser at rest finds a tree if a new one does and no token has to be put off that was put off before.
It then finds the same tree, further down. -/
theorem Rested.parse_ok_iff (h : p.Rested) {tree' : Node} {p' : Parser} : p.parse u = (.ok tree', p') ↔
      ∃ tree q, JsMinify.parse u = (.ok tree, q) ∧ q.Unseen p.passed p ∧
        tree' = tree.lower p.passed ∧ p' = q.lower p.passed p := by
  by_cases hu : (JsMinify.parse u).2.Unseen p.passed p
  · rw [h.parse_of_unseen hu]
    generalize JsMinify.parse u = r at hu
    obtain ⟨e | tree, q⟩ := r
    · constructor
      · intro hok
        cases (Prod.mk.inj hok).1
      · rintro ⟨tree, q', hok, -⟩
        cases (Prod.mk.inj hok).1
    · constructor
      · intro hok
        obtain ⟨htree, hq⟩ := Prod.mk.inj hok
        exact ⟨tree, q, rfl, hu, (Except.ok.inj htree).symm, hq.symm⟩
      · rintro ⟨tree, q, hok, -, rfl, rfl⟩
        rw [hok]
        rfl
  · obtain ⟨e, q, he⟩ := h.parse_of_seen hu
    rw [he]
    constructor
    · intro hok
      cases (Prod.mk.inj hok).1
    · rintro ⟨tree, q, hok, hq, -⟩
      rw [hok] at hu
      exact absurd hq hu

/-- A new parser has parsed some texts, one after another, and each has a tree. -/
inductive HasParsed : List String → Parser → Prop where
  | new : HasParsed [] {}
  | next {texts : List String} {p p' : Parser} {u : String} {tree : Node} (before : HasParsed texts p)
      (ok : p.parse u = (.ok tree, p')) : HasParsed (texts ++ [u]) p'

theorem HasParsed.rested {texts : List String} (h : HasParsed texts p) : p.Rested := by
  induction h with
  | new => exact rested_new
  | next _ ok ih =>
    obtain ⟨tree, q, hq, -, -, rfl⟩ := ih.parse_ok_iff.1 ok
    exact (rested_of_parse hq).lower _ _

end Parser

/-- A parser that has parsed some texts finds a tree for the next one exactly when a new parser does and
none of the tokens that the new parser puts off was put off before: the same kind of token with the same text,
on the same line and at the same position in its text. The tree is then the same, further down. -/
theorem parse_again_iff {texts : List String} {p : Parser} (h : Parser.HasParsed texts p) (u : String) :
    ((∃ tree, (p.parse u).1 = .ok tree) ↔
        (∃ tree, (parse u).1 = .ok tree) ∧ ∀ t ∈ (parse u).2.seen, t.lower p.passed ∉ p.seen) ∧
      ∀ tree tree', (parse u).1 = .ok tree → (p.parse u).1 = .ok tree' → tree' = tree.lower p.passed := by
  constructor
  · constructor
    · rintro ⟨tree', hok⟩
      obtain ⟨tree, q, hq, hu, -⟩ := h.rested.parse_ok_iff.1 (Prod.ext (x := p.parse u) (y := (_, _)) hok rfl)
      rw [hq]
      exact ⟨⟨tree, rfl⟩, hu⟩
    · rintro ⟨⟨tree, hok⟩, hu⟩
      have hq := h.rested.parse_ok_iff.2 ⟨tree, _, Prod.ext (x := parse u) (y := (_, _)) hok rfl, hu, rfl, rfl⟩
      exact ⟨_, congrArg Prod.fst hq⟩
  · intro tree tree' hok hok'
    obtain ⟨tree₁, q, hq, -, htree, -⟩ := h.rested.parse_ok_iff.1 (Prod.ext (x := p.parse u) (y := (_, _)) hok' rfl)
    rw [hq] at hok
    rw [htree, Except.ok.inj hok]

/-- A parser that put off the brace of a text rejects it in the same text, and takes it one place further
on. -/
theorem parse_again_of_block : ∃ p, Parser.HasParsed ["\x7ba\x7d"] p ∧ (∃ tree, (parse "\x7ba\x7d").1 = .ok tree) ∧
      (¬ ∃ tree, (p.parse "\x7ba\x7d").1 = .ok tree) ∧ ∃ tree, (p.parse " \x7ba\x7d").1 = .ok tree := by
  have hok : (parse "\x7ba\x7d").1.isOk = true := by decide +kernel
  have hok' : (parse " \x7ba\x7d").1.isOk = true := by decide +kernel
  rcases hparse : parse "\x7ba\x7d" with ⟨e | tree, p⟩
  · rw [hparse] at hok
    cases hok
  have h : Parser.HasParsed ["\x7ba\x7d"] p := .next .new hparse
  have hp : p = (parse "\x7ba\x7d").2 := by rw [hparse]
  refine ⟨p, h, ⟨tree, rfl⟩, ?_, ?_⟩
  · rw [(parse_again_iff h _).1]
    rintro ⟨-, hu⟩
    revert hu
    rw [hp]
    decide +kernel
  · rw [(parse_again_iff h _).1]
    refine ⟨?_, ?_⟩
    · cases hparse' : (parse " \x7ba\x7d").1 with
      | error e =>
        rw [hparse'] at hok'
        cases hok'
      | ok tree' => exact ⟨tree', rfl⟩
    · rw [hp]
      decide +kernel

end JsMinify
