import JsMinify.Proofs.Lexer.Lines

/-!
# Reading further down

`Lexer.lower` moves a lexer a number of lines down, with all that it holds, and gives it older reports of
illegal characters. Every function of the lexer commutes with it, up to `Lexer.token`: what is read further
down is what is read here, further down (`token_lower`). What the lexer remembers as the token before the
last one does not count for the next one (`token_prev`).
-/

namespace JsMinify

/-- The same token, some lines further down. -/
def Token.lower (d : Nat) (t : Token) : Token := { t with line := t.line + d }

def IllegalChar.lower (d : Nat) (r : IllegalChar) : IllegalChar :=
  { r with line := r.line + d, after := r.after.map (Token.lower d) }

def LexError.lower (d : Nat) : LexError → LexError
  | .badRegex rest line => .badRegex rest (line + d)
  | e => e

theorem Token.lower_inj {d : Nat} {t u : Token} : t.lower d = u.lower d ↔ t = u := by
  refine ⟨fun h => ?_, fun h => h ▸ rfl⟩
  obtain ⟨k, s, line, pos⟩ := t
  obtain ⟨k', s', line', pos'⟩ := u
  obtain ⟨rfl, rfl, hline, rfl⟩ := Token.mk.inj h
  obtain rfl := Nat.add_right_cancel hline
  rfl

@[simp] theorem Token.lower_kind (d : Nat) (t : Token) : (t.lower d).kind = t.kind := rfl

@[simp] theorem Token.lower_breaks (d : Nat) (t : Token) : (t.lower d).breaks = t.breaks := rfl

namespace Lexer

/-- The same lexer, some lines further down and with older reports. -/
def lower (d : Nat) (old : List IllegalChar) (l : Lexer) : Lexer :=
  { l with
    line := l.line + d
    prev := l.prev.map (Token.lower d)
    cur := l.cur.map (Token.lower d)
    pushed := l.pushed.map (Token.lower d)
    illegal := old ++ l.illegal.map (IllegalChar.lower d) }

def lowerResult (d : Nat) (old : List IllegalChar) : LexResult (Option Token) → LexResult (Option Token)
  | (.ok t, l) => (.ok (t.map (Token.lower d)), l.lower d old)
  | (.error e, l) => (.error (e.lower d), l.lower d old)

variable (d : Nat) (old : List IllegalChar) (l : Lexer)

theorem take_lower (s : List Char) (pos : Nat) (k : TokenKind) (n : Nat) :
    (l.lower d old).take s pos k n = ((l.take s pos k n).1.lower d, (l.take s pos k n).2.lower d old) := by
  unfold take
  by_cases hk : k = .string
  · simp only [hk, if_true]
    refine Prod.ext rfl ?_
    simp only [lower, Nat.add_right_comm]
  · simp only [hk, if_false]
    rfl

theorem scanFrom_lower (s : List Char) (pos : Nat) :
    (l.lower d old).scanFrom s pos = lowerResult d old (l.scanFrom s pos) := by
  induction s generalizing l pos with
  | nil => rfl
  | cons c s ih =>
    rw [scanFrom, scanFrom]
    split
    · exact ih l (pos + 1)
    · have hrule : (l.lower d old).rule? = l.rule? := rfl
      rw [hrule]
      split
      · rw [take_lower]
        rfl
      · have hmode : (l.lower d old).mode = l.mode := rfl
        rw [hmode]
        split
        · rw [← ih]
          congr 1
          simp only [lower, List.map_append, List.append_assoc, List.map_cons, List.map_nil]
          rfl
        · rfl

theorem scan_lower : (l.lower d old).scan = lowerResult d old l.scan := scanFrom_lower d old l _ _

theorem advance_lower : (l.lower d old).advance = lowerResult d old l.advance := by
  have hscan := scan_lower d old { l with prev := l.cur }
  unfold advance
  erw [hscan]
  generalize { l with prev := l.cur }.scan = r
  obtain ⟨e | _ | t, l'⟩ := r
  · rfl
  · rfl
  · have hprev : (l'.prev.map (Token.lower d)).any (·.kind.isRestricted) = l'.prev.any (·.kind.isRestricted) := by
      cases l'.prev <;> rfl
    have hkind : decide ((t.lower d).kind = .lineEnd) = decide (t.kind = .lineEnd) := rfl
    simp only [lowerResult, Option.map_some, lower, hprev, hkind]
    cases decide (t.kind = .lineEnd) && l'.prev.any (·.kind.isRestricted) with
    | true =>
      simp only [if_true, makeSemi, countBreaks, Token.lower, Token.breaks, Option.map_some, Nat.add_right_comm]
    | false => rfl

theorem readRegex_lower : (l.lower d old).readRegex = lowerResult d old l.readRegex := by
  have hscan := scan_lower d old { l with prev := l.cur, mode := .regex }
  unfold readRegex
  erw [hscan]
  generalize { l with prev := l.cur, mode := .regex }.scan = r
  obtain ⟨e | t, l'⟩ := r <;> rfl

theorem raw_lower : (l.lower d old).raw = lowerResult d old l.raw := by
  have hdivides : (l.lower d old).slashDivides = l.slashDivides := by
    simp only [slashDivides, lower]
    cases l.cur <;> rfl
  have hopens : (l.lower d old).opensRegex = l.opensRegex := by
    unfold opensRegex
    rw [hdivides]
    rfl
  unfold raw
  rw [hopens]
  split
  · exact readRegex_lower d old l
  · exact advance_lower d old l

theorem countBreaks_lower (t : Token) : (l.lower d old).countBreaks (t.lower d) = (l.countBreaks t).lower d old := by
  simp only [countBreaks, lower, Token.lower_breaks, Nat.add_right_comm]

theorem handOut_lower (t : Token) :
    (l.lower d old).handOut (t.lower d) = ((l.handOut t).1.lower d, (l.handOut t).2.lower d old) := by
  have hcur : (l.lower d old).cur = some (t.lower d) ↔ l.cur = some t := by
    simp only [lower, Option.map_eq_some_iff, Token.lower_inj, exists_eq_right]
  simp only [handOut, hcur, countBreaks_lower]
  split <;> rfl

theorem skipTrivia_lower (fuel : Nat) : skipTrivia fuel (l.lower d old) = lowerResult d old (skipTrivia fuel l) := by
  induction fuel generalizing l with
  | zero => rfl
  | succ fuel ih =>
    rw [skipTrivia_succ, skipTrivia_succ, raw_lower]
    have hend : (l.lower d old).endOf = l.endOf := rfl
    rw [hend]
    rcases l.raw with ⟨e | _ | t, l'⟩
    · rfl
    · change (l.endOf, l'.lower d old) = lowerResult d old (l.endOf, l')
      unfold endOf
      split <;> rfl
    · change (if t.kind.isTrivia then skipTrivia fuel ((l'.lower d old).countBreaks (t.lower d))
          else (l'.lower d old).handOut? (some (t.lower d))) =
        lowerResult d old (if t.kind.isTrivia then skipTrivia fuel (l'.countBreaks t) else l'.handOut? (some t))
      split
      · rw [countBreaks_lower]
        exact ih _
      · simp only [handOut?, handOut_lower]
        rfl

theorem handBack_lower (t : Token) (rest : List Token) : (l.lower d old).handBack (t.lower d) (rest.map (Token.lower d)) =
      ((l.handBack t rest).1.lower d, (l.handBack t rest).2.lower d old) := by
  have hrenew : (fun u : Token => if u = t.lower d then
      { t.lower d with line := ((l.countBreaks t).lower d old).line } else u) ∘ Token.lower d =
      Token.lower d ∘ fun u => if u = t then { t with line := (l.countBreaks t).line } else u := by
    funext u
    simp only [Function.comp_apply, Token.lower_inj]
    split <;> rfl
  simp only [handBack, countBreaks_lower]
  refine Prod.ext rfl ?_
  simp only [lower, Option.map_map, List.map_map] at hrenew ⊢
  rw [hrenew]

/-- With nothing pushed back, the next token is read from the text. -/
theorem token_of_loaded {l : Lexer} (hl : l.loaded) (hp : l.pushed = []) : l.token = skipTrivia (l.rest.length + 1) l := by
  simp only [token, hp, hl, if_true]

/-- What is read further down is what is read here, further down. -/
theorem token_lower : (l.lower d old).token = lowerResult d old l.token := by
  cases hp : l.pushed with
  | nil =>
    have hp' : (l.lower d old).pushed = [] := by rw [lower, hp]; rfl
    cases hl : l.loaded with
    | false =>
      have hl' : (l.lower d old).loaded = false := hl
      simp only [token, hp, hp', hl, hl', Bool.false_eq_true, if_false]
      rfl
    | true =>
      rw [token_of_loaded hl hp, token_of_loaded (show (l.lower d old).loaded = true from hl) hp']
      exact skipTrivia_lower d old l _
  | cons t rest =>
    have hp' : (l.lower d old).pushed = t.lower d :: rest.map (Token.lower d) := by
      rw [lower, hp, List.map_cons]
    simp only [token, hp, hp', handBack_lower]
    rfl

/-- What is read next does not depend on the token before the last one. -/
theorem token_prev {l : Lexer} (hl : l.loaded) (hp : l.pushed = []) (prev : Option Token) :
    { l with prev := prev }.token = l.token := by
  rw [token_of_loaded hl hp, token_of_loaded (l := { l with prev := prev }) hl hp, skipTrivia_succ, skipTrivia_succ]
  rfl

end Lexer

end JsMinify
