import JsMinify.Proofs.Parser.Ahead
import JsMinify.Proofs.Parser.Credit
import JsMinify.Proofs.Parser.Patience

/-!
# Parsing ends

`Config.due` bounds the moves that a run can still make: so many for each token that can still be shifted
(`shiftsDue`), one for each step up to the next shift (`stage`), and the credit of the stack for the
reductions. Every move lowers it (`due_step`), so a run ends within its budget, with a tree or with an
error that tells what is wrong.

A token read from the text is put off at most once, because it is known when it comes again, unless its
line changes. Such a token, and the end of the text, are put off as often as the patience of the state
allows.
-/

namespace JsMinify.Config

open Grammar

variable {c c' : Config} {t : Token} {i : Nat} {r : Rule}

/-- How many semicolons can still be made up before a token. -/
def quota (c : Config) (t : Token) : Nat :=
  if t.kind.mayBreak then c.patience.held else if t ∈ c.parser.seen then 0 else 1

/-- How many tokens the rest of the text allows for. -/
def room (c : Config) : Nat := 3 * c.parser.lexer.rest.length

/-- How many tokens can still be shifted, made up ones included. -/
def shiftsDue (c : Config) : Nat :=
  match c.ahead, c.parser.lexer.pushed with
  | none, [] => if c.parser.lexer.rest = [] then c.patience.held else c.room + 2
  | none, t :: _ => c.room + 3 + c.quota t
  | some none, _ => c.patience.held
  | some (some t), [] =>
    if t.kind = .semi ∧ c.parser.lexer.rest = [] then c.patience.semi else c.room + 3 + c.quota t
  | some (some _), t :: _ => c.room + 3 + if t.kind.mayBreak then c.patience.semi else 1

/-- The steps up to the next shift: what is next is read, perhaps put off, and shifted. -/
def stage (c : Config) : Nat :=
  match c.ahead, c.parser.lexer.pushed with
  | none, _ => 3
  | some none, _ => 2
  | some (some t), [] => if t.kind = .semi ∧ c.parser.lexer.rest = [] then 1 else 2
  | some (some _), _ :: _ => 1

/-- A bound for the moves that a run can still make. -/
def due (c : Config) : Nat := 30 * c.shiftsDue + c.stage + credit c.stack

theorem quota_le (c : Config) (t : Token) : c.quota t ≤ 2 := by
  have := c.patience_le
  unfold quota
  split
  · exact this.1
  · split <;> omega

theorem lasting_of_mayBreak (hk : t.kind.mayBreak) (hs : t.kind.isTrivia = false) : TokenKind.lasting (some t.kind) := by
  simp [TokenKind.lasting, hk, hs]

section

variable {before : Option (Option Token)} {ts : List Token} {l : Lexer}

/-! ## Reductions -/

theorem quota_reduced (h : Stacked c.stack) (why : c.Reduces i) (rule : Table.rule? i = some r)
    (hk : ∀ look, c.ahead = some look → look = some t ∧ t.kind.isTrivia = false) : (c.reduced r).quota t ≤ c.quota t := by
  unfold quota
  cases hb : t.kind.mayBreak with
  | true =>
    simp only [if_true]
    refine (h.patience_kept why rule).1 fun look ahead => ?_
    obtain ⟨rfl, hs⟩ := hk look ahead
    exact lasting_of_mayBreak hb hs
  | false => exact Nat.le_refl _

theorem shiftsDue_reduced (h : Stacked c.stack) (ha : Ahead c.parser c.ahead before ts) (why : c.Reduces i)
    (rule : Table.rule? i = some r) : (c.reduced r).shiftsDue ≤ c.shiftsDue := by
  have hroom : (c.reduced r).room = c.room := rfl
  have hparser : (c.reduced r).parser = c.parser := rfl
  have hahead : (c.reduced r).ahead = c.ahead := rfl
  generalize hl : c.ahead = look at ha
  cases ha with
  | unread pushed =>
    simp only [shiftsDue, hahead, hparser, hroom, hl, pushed]
    split
    · exact (h.patience_kept why rule).1 (by simp [hl])
    · exact Nat.le_refl _
  | waiting waits =>
    simp only [shiftsDue, hahead, hparser, hroom, hl, waits.pushed]
    exact Nat.add_le_add_left (quota_reduced h why rule (by simp [hl])) _
  | ended pushed _ =>
    simp only [shiftsDue, hahead, hl]
    refine (h.patience_kept why rule).1 fun look ahead => ?_
    cases hl.symm.trans ahead
    rfl
  | @held t holds =>
    simp only [shiftsDue, hahead, hparser, hroom, hl, holds.pushed]
    split
    · next hsemi =>
      refine (h.patience_kept why rule).2 fun look ahead => ?_
      cases hl.symm.trans ahead
      exact congrArg some hsemi.1
    · refine Nat.add_le_add_left (quota_reduced h why rule fun look ahead => ?_) _
      exact ⟨(Option.some.inj (hl.symm.trans ahead)).symm, holds.solid⟩
  | @semi s t kind waits =>
    have hsemi : (c.reduced r).patience.semi ≤ c.patience.semi := by
      refine (h.patience_kept why rule).2 fun look ahead => ?_
      cases hl.symm.trans ahead
      exact congrArg some kind
    simp only [shiftsDue, hahead, hparser, hroom, hl, waits.pushed]
    split
    · exact Nat.add_le_add_left hsemi _
    · exact Nat.le_refl _
  | lastSemi kind pushed rest =>
    simp only [shiftsDue, hahead, hparser, hl, pushed, kind, rest, and_self, if_true]
    refine (h.patience_kept why rule).2 fun look ahead => ?_
    cases hl.symm.trans ahead
    exact congrArg some kind

theorem due_reduced (h : Stacked c.stack) (ha : Ahead c.parser c.ahead before ts) (why : c.Reduces i)
    (rule : Table.rule? i = some r) (handle : c.Handle r) : (c.reduced r).due < c.due := by
  have hshifts := shiftsDue_reduced h ha why rule
  have hstage : (c.reduced r).stage = c.stage := rfl
  have hcredit := credit_reduced h why rule handle
  unfold due
  omega

/-! ## Reading -/

/-- A token that waited has no more semicolons before it when it comes again. -/
theorem quota_again (h : Waits c.parser t) (n : Nat) (hn : t.breaks = 0 → n = c.parser.lexer.line)
    {look : Option (Option Token)} : ({ c with parser := { c.parser with lexer := l }, ahead := look } : Config).quota
      { t with line := n } ≤ c.quota t := by
  unfold quota
  cases hb : t.kind.mayBreak with
  | true =>
    simp only [if_true]
    exact Nat.le_refl _
  | false =>
    obtain ⟨hbreaks, hline⟩ := h.same hb
    have hsame : { t with line := n } = t := by
      rw [hn hbreaks, ← hline]
    simp only [hsame, h.seen, Bool.false_eq_true, if_false, if_true]
    exact Nat.le_refl _

theorem due_read (ha : Ahead c.parser none before ts) (unread : c.ahead = none) {r : Option Token}
    (token : c.parser.lexer.token = (.ok r, l)) :
    ({ c with parser := { c.parser with lexer := l }, ahead := some r } : Config).due < c.due := by
  have hpat := c.patience_le
  generalize hc : ({ c with parser := { c.parser with lexer := l }, ahead := some r } : Config) = c'
  have hcredit : credit c'.stack = credit c.stack := by rw [← hc]
  have hpatience : c'.patience = c.patience := by rw [← hc]; rfl
  have hstage : c.stage = 3 := by simp only [stage, unread]
  suffices h : 30 * c'.shiftsDue + c'.stage < 30 * c.shiftsDue + 3 by
    unfold due
    omega
  have hahead : c'.ahead = some r := by rw [← hc]
  have hlexer : c'.parser.lexer = l := by rw [← hc]
  cases ha with
  | unread pushed =>
    have hh := Lexer.token_read pushed token
    have hpushed := Lexer.token_pushed_nil pushed token
    cases r with
    | none =>
      simp only [shiftsDue, stage, unread, pushed, hahead, hpatience]
      split
      · omega
      · unfold room
        omega
    | some t =>
      have hshort := hh.shorter rfl
      have hne : c.parser.lexer.rest ≠ [] := fun he => by simp [he] at hshort
      have hquota := c'.quota_le t
      simp only [shiftsDue, stage, unread, pushed, hne, hahead, hlexer, hpushed, hpatience, if_false, room]
      split <;> omega
  | @waiting t waits =>
    obtain ⟨l', ht, alike, hpushed, -⟩ := Lexer.token_pushed waits.pushed
    rw [token] at ht
    obtain ⟨hr, rfl⟩ := Prod.mk.inj ht
    cases hr
    have hquota : c'.quota { t with line := c.parser.lexer.line + t.breaks } ≤ c.quota t := by
      rw [← hc]
      exact quota_again waits _ fun h0 => by rw [h0, Nat.add_zero]
    simp only [shiftsDue, stage, unread, waits.pushed, hahead, hlexer, hpushed, hpatience, room, ← alike.rest]
    split <;> omega

/-! ## Shifts -/

theorem due_shift (h : Stacked c.stack) {s : State} (ha : Ahead c.parser (some (some t)) before ts)
    (free : Table.forced? c.state = none) (look : c.ahead = some (some t))
    (entry : Table.move c.state (some t.kind) = some (.shift s))
    (hstack : c'.stack = ⟨s, .t t.kind, ⟨.token t, t.line⟩⟩ :: c.stack) (hahead : c'.ahead = none)
    (hparser : c'.parser = c.parser) : c'.due < c.due := by
  have hcredit := credit_shift c.stack s t.kind ⟨.token t, t.line⟩
  rw [← hstack] at hcredit
  have hstate : c'.state = s := by
    rw [state_eq, hstack]
    rfl
  have hstage : c'.stage = 3 := by simp only [stage, hahead]
  have hpat := c'.patience_le
  have hsemi : t.kind = .semi → c'.patience.held < c.patience.semi := by
    intro hk
    rw [hk] at entry
    rw [patience, hstate]
    exact Table.patience_shift h.config_state_lt free entry
  suffices h : 30 * c'.shiftsDue + 3 + 27 < 30 * c.shiftsDue + c.stage by
    unfold due
    omega
  cases ha with
  | held holds =>
    simp only [shiftsDue, stage, look, hahead, hparser, holds.pushed, room]
    by_cases hlast : t.kind = .semi ∧ c.parser.lexer.rest = []
    · have := hsemi hlast.1
      simp only [hlast, and_self, if_true]
      omega
    · simp only [hlast, if_false]
      split <;> omega
  | @semi _ u kind waits =>
    have := hsemi kind
    simp only [shiftsDue, stage, look, hahead, hparser, waits.pushed, room, quota, waits.seen, if_true]
    split <;> omega
  | lastSemi kind pushed rest =>
    have := hsemi kind
    simp only [shiftsDue, stage, look, hahead, hparser, pushed, rest, kind, and_self, if_true]
    omega

/-! ## Semicolons made up -/

theorem due_putOff (h : Stacked c.stack) {look : Option Token} (ha : Ahead c.parser (some look) before ts)
    (free : Table.forced? c.state = none) (ahead : c.ahead = some look)
    (entry : Table.move c.state (look.map (·.kind)) = none) (fresh : ∀ t, look = some t → t ∉ c.parser.seen ∧ t.kind ≠ .semi) :
    (c.putOffBy look).due < c.due := by
  have hcredit : credit (c.putOffBy look).stack = credit c.stack := rfl
  have hpatience : (c.putOffBy look).patience = c.patience := rfl
  have hlasting : TokenKind.lasting (look.map (·.kind)) → c.patience.semi ≤ c.patience.held :=
    fun hk => Table.patience_putOff h.config_state_lt free hk entry
  suffices h : 30 * (c.putOffBy look).shiftsDue + (c.putOffBy look).stage < 30 * c.shiftsDue + c.stage by
    unfold due
    omega
  cases ha with
  | ended pushed rest =>
    have := hlasting rfl
    have hpushed : (c.putOffBy none).parser.lexer.pushed = [] := pushed
    have hrest : (c.putOffBy none).parser.lexer.rest = [] := rest
    have hnext : (c.putOffBy none).ahead = some (some ⟨.semi, ";", c.parser.lexer.line, c.parser.lexer.pos⟩) := rfl
    simp only [shiftsDue, stage, ahead, hnext, hpushed, hrest, hpatience, and_self, if_true]
    omega
  | @held t holds =>
    obtain ⟨hseen, hkind⟩ := fresh t rfl
    have hpushed : (c.putOffBy (some t)).parser.lexer.pushed = [t] := by
      show t :: c.parser.lexer.pushed = [t]
      rw [holds.pushed]
    have hroom : (c.putOffBy (some t)).room = c.room := rfl
    have hnext : (c.putOffBy (some t)).ahead = some (some ⟨.semi, ";", t.line, t.pos⟩) := rfl
    simp only [shiftsDue, stage, ahead, hnext, hpushed, holds.pushed, hpatience, hkind, hroom, quota,
      hseen, false_and, if_false]
    cases hb : t.kind.mayBreak with
    | true =>
      have := hlasting (lasting_of_mayBreak hb holds.solid)
      simp only [if_true]
      omega
    | false =>
      simp only [Bool.false_eq_true, if_false]
      omega
  | semi kind _ | lastSemi kind _ _ => exact absurd kind (fresh _ rfl).2

end

/-! ## Runs -/

/-- A run as it is reached from the start: the stack follows the automaton, and the parser is in one of
the situations between two moves. -/
structure Regular (c : Config) : Prop where
  stacked : Stacked c.stack
  ahead : ∃ before ts, Ahead c.parser c.ahead before ts

theorem Regular.step (h : c.Regular) (hs : c.step = .next c') : c'.Regular :=
  ⟨h.stacked.step hs, ahead_step h.ahead hs⟩

/-- Every move lowers what is due. -/
theorem due_step (h : c.Regular) (hs : c.step = .next c') : c'.due < c.due := by
  obtain ⟨before, ts, ha⟩ := h.ahead
  cases goes_of_step hs with
  | reduce why rule handle => exact due_reduced h.stacked ha why rule handle
  | read _ unread token =>
    rw [unread] at ha
    exact due_read ha unread token
  | shift free look entry =>
    rw [look] at ha
    exact due_shift h.stacked ha free look entry rfl rfl rfl
  | putOff free ahead entry _ fresh =>
    rw [ahead] at ha
    exact due_putOff h.stacked ha free ahead entry fresh

theorem After.due_le {n : Nat} (h : After n c c') (hc : c.Regular) : c'.due + n ≤ c.due := by
  induction h with
  | zero => exact Nat.le_refl _
  | next first _ ih =>
    have hlt := due_step hc first
    have hle := ih (hc.step first)
    omega

def start (text : String) : Config := { parser := { lexer := ({} : Lexer).input text } }

theorem start_regular (text : String) : (start text).Regular := ⟨.nil, _, _, .unread rfl⟩

theorem start_due (text : String) : (start text).due ≤ 90 * text.length + 66 := by
  have hpat := (start text).patience_le
  have hcredit : credit (start text).stack ≤ 3 := by
    have := Table.spare_le 0
    simpa [start, credit, symbols, stateOf, creditOf] using this
  have hroom : (start text).room = 3 * text.length := by
    show 3 * text.toList.length = _
    rw [String.length_toList]
  have hshifts : (start text).shiftsDue ≤ 3 * text.length + 2 := by
    have hahead : (start text).ahead = none := rfl
    have hpushed : (start text).parser.lexer.pushed = [] := rfl
    simp only [shiftsDue, hahead, hpushed, hroom]
    split <;> omega
  have hstage : (start text).stage = 3 := rfl
  unfold due
  omega

end JsMinify.Config

namespace JsMinify

/-- The budget of a text is never used up. -/
theorem run_ends (text : String) : ∃ n c, Config.After n (Config.start text) c ∧ c.step.result? = some (parse text) := by
  have hrun := Config.run_cases (Parser.budget text.length) (Config.start text)
  rcases hrun with ⟨n, c, -, hafter, hresult⟩ | ⟨c, hafter, -⟩
  · exact ⟨n, c, hafter, hresult⟩
  · have hdue := hafter.due_le (Config.start_regular text)
    have hstart := Config.start_due text
    unfold Parser.budget at hdue
    omega

/-- Parsing ends for every text, after a number of moves that grows with its length at most: with a tree,
or with an error of the lexer or at a token that does not fit. -/
theorem parse_ends (text : String) :
    (∀ n c, Config.After n (Config.start text) c → n ≤ 90 * text.length + 66) ∧ ∃ n c, Config.After n (Config.start text) c ∧
        ((∃ tree p, c.step = .accepted tree p ∧ parse text = (.ok tree, p)) ∨
          ∃ e p, c.step = .failed e p ∧ e ≠ .stuck ∧ parse text = (.error e, p)) := by
  have hstart := Config.start_regular text
  refine ⟨fun n c hafter => ?_, ?_⟩
  · have hdue := hafter.due_le hstart
    have hbound := Config.start_due text
    omega
  · obtain ⟨n, c, hafter, hresult⟩ := run_ends text
    have hstacked : c.Regular := hafter.keeps (fun _ _ => Config.Regular.step) hstart
    refine ⟨n, c, hafter, ?_⟩
    cases hs : c.step with
    | next c' =>
      rw [hs] at hresult
      cases hresult
    | accepted tree p =>
      rw [hs] at hresult
      exact .inl ⟨tree, p, rfl, (Option.some.inj hresult).symm⟩
    | failed e p =>
      rw [hs] at hresult
      refine .inr ⟨e, p, rfl, ?_, (Option.some.inj hresult).symm⟩
      rintro rfl
      exact hstacked.stacked.step_ne_stuck p hs

/-- The end of the text is put off inside the header of a loop, and then refused. -/
theorem parse_ends_in_header :
    ∃ n c e p, Config.After n (Config.start "for(;") c ∧ n ≤ 516 ∧ c.step = .failed e p ∧ parse "for(;" = (.error e, p) := by
  obtain ⟨hbound, n, c, hafter, ⟨tree, p, -, htree⟩ | ⟨e, p, hs, -, hparse⟩⟩ := parse_ends "for(;"
  · have hnone : (parse "for(;").1.isOk = false := by decide +kernel
    rw [htree] at hnone
    cases hnone
  · exact ⟨n, c, e, p, hafter, hbound n c hafter, hs, hparse⟩

end JsMinify
