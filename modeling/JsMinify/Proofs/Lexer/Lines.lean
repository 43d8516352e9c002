import JsMinify.Proofs.Lexer.Reading

/-!
# Reading does not depend on lines

Lines are for messages only. Two lexers that agree but for lines (`Alike`) read tokens that agree but for
lines, and agree again afterwards (`token_alike`). So the tokens of a text are the same whatever lines are
counted between them.
-/

namespace JsMinify

variable {l m : Lexer} {t : Token}

/-- A token but for its line: its kind, its text and its position. -/
def Token.bare (t : Token) : Token := { t with line := 0 }

namespace Lexer

/-- Two lexers agree but for lines, and but for what was pushed back or reported. -/
structure Alike (l m : Lexer) : Prop where
  loaded : l.loaded = m.loaded
  rest : l.rest = m.rest
  pos : l.pos = m.pos
  mode : l.mode = m.mode
  prev : l.prev.map Token.bare = m.prev.map Token.bare
  cur : l.cur.map Token.bare = m.cur.map Token.bare

theorem Alike.refl (l : Lexer) : Alike l l := ⟨rfl, rfl, rfl, rfl, rfl, rfl⟩

theorem Alike.trans {n : Lexer} (h : Alike l m) (h' : Alike m n) : Alike l n :=
  ⟨h.loaded.trans h'.loaded, h.rest.trans h'.rest, h.pos.trans h'.pos, h.mode.trans h'.mode,
    h.prev.trans h'.prev, h.cur.trans h'.cur⟩

theorem Alike.symm (h : Alike l m) : Alike m l :=
  ⟨h.loaded.symm, h.rest.symm, h.pos.symm, h.mode.symm, h.prev.symm, h.cur.symm⟩

/-- Two results of reading agree but for lines. -/
inductive SameResult : LexResult (Option Token) → LexResult (Option Token) → Prop where
  | ok {r r' : Option Token} {l l' : Lexer} (token : r.map Token.bare = r'.map Token.bare)
      (lexer : Alike l l') : SameResult (.ok r, l) (.ok r', l')
  | error {e e' : LexError} {l l' : Lexer} : SameResult (.error e, l) (.error e', l')

theorem any_kind_of_bare {o o' : Option Token} (h : o.map Token.bare = o'.map Token.bare)
    (p : TokenKind → Bool) : o.any (fun t => p t.kind) = o'.any (fun t => p t.kind) := by
  have hany : ∀ o : Option Token, o.any (fun t => p t.kind) = (o.map Token.bare).any (fun t => p t.kind) := by
    intro o
    cases o <;> rfl
  rw [hany, h, ← hany]

variable {t' : Token}

theorem kind_of_bare (h : t.bare = t'.bare) : t.kind = t'.kind := by
  show t.bare.kind = t'.bare.kind
  rw [h]

theorem pos_of_bare (h : t.bare = t'.bare) : t.pos = t'.pos := by
  show t.bare.pos = t'.bare.pos
  rw [h]

theorem take_alike (h : Alike l m) (s : List Char) (pos : Nat) (k : TokenKind) (n : Nat) :
    (l.take s pos k n).1.bare = (m.take s pos k n).1.bare ∧ Alike (l.take s pos k n).2 (m.take s pos k n).2 := by
  unfold take
  by_cases hk : k = .string
  · simp only [hk, if_true]
    exact ⟨rfl, h.loaded, rfl, rfl, h.mode, h.prev, h.cur⟩
  · simp only [hk, if_false]
    exact ⟨rfl, h.loaded, rfl, rfl, h.mode, h.prev, h.cur⟩

theorem scanFrom_alike (h : Alike l m) (s : List Char) (pos : Nat) : SameResult (l.scanFrom s pos) (m.scanFrom s pos) := by
  induction s generalizing l m pos with
  | nil => exact .ok rfl ⟨h.loaded, rfl, rfl, h.mode, h.prev, h.cur⟩
  | cons c s ih =>
    cases hc : isBlank c with
    | true =>
      rw [scanFrom, scanFrom, if_pos hc, if_pos hc]
      exact ih h (pos + 1)
    | false =>
      have hrule : l.rule? (c :: s) = m.rule? (c :: s) := by rw [rule?, rule?, h.mode]
      cases hr : l.rule? (c :: s) with
      | some r =>
        obtain ⟨k, n⟩ := r
        rw [scanFrom_lexeme pos hc hr, scanFrom_lexeme pos hc (hrule ▸ hr)]
        obtain ⟨htoken, hlexer⟩ := take_alike h (c :: s) pos k n
        exact .ok (congrArg some htoken) hlexer
      | none =>
        rw [scanFrom, scanFrom, if_neg (by simp [hc]), if_neg (by simp [hc]), hr, ← hrule, hr]
        cases hm : l.mode with
        | ordinary =>
          rw [← h.mode, hm]
          refine ih ?_ (pos + 1)
          exact ⟨h.loaded, h.rest, h.pos, rfl, h.prev, h.cur⟩
        | regex =>
          rw [← h.mode, hm]
          exact .error

theorem scan_alike (h : Alike l m) : SameResult l.scan m.scan := by
  unfold scan
  rw [← h.rest, ← h.pos]
  exact scanFrom_alike h l.rest l.pos

theorem advance_alike (h : Alike l m) : SameResult l.advance m.advance := by
  have hscan := scan_alike (l := { l with prev := l.cur }) (m := { m with prev := m.cur })
    ⟨h.loaded, h.rest, h.pos, h.mode, h.cur, h.cur⟩
  unfold advance
  generalize { l with prev := l.cur }.scan = r at hscan
  generalize { m with prev := m.cur }.scan = r' at hscan
  cases hscan with
  | error => exact .error
  | @ok t t' l₁ m₁ token lexer =>
    cases t with
    | none =>
      obtain rfl : t' = none := by simpa using token.symm
      exact .ok rfl ⟨lexer.loaded, lexer.rest, lexer.pos, lexer.mode, lexer.prev, rfl⟩
    | some t =>
      obtain ⟨t', rfl, hbare⟩ := Option.map_eq_some_iff.1 token.symm
      have hrestricted := any_kind_of_bare lexer.prev TokenKind.isRestricted
      simp only [← kind_of_bare hbare.symm, ← hrestricted]
      split
      · refine .ok ?_ ⟨lexer.loaded, lexer.rest, lexer.pos, lexer.mode, lexer.prev, ?_⟩
        · have hpos := (pos_of_bare hbare).symm
          exact congrArg (fun pos => some (⟨.semi, ";", 0, pos⟩ : Token)) hpos
        · exact congrArg some hbare.symm
      · exact .ok (congrArg some hbare.symm)
          ⟨lexer.loaded, lexer.rest, lexer.pos, lexer.mode, lexer.prev, congrArg some hbare.symm⟩

theorem readRegex_alike (h : Alike l m) : SameResult l.readRegex m.readRegex := by
  have hscan := scan_alike (l := { l with prev := l.cur, mode := .regex })
    (m := { m with prev := m.cur, mode := .regex }) ⟨h.loaded, h.rest, h.pos, rfl, h.cur, h.cur⟩
  unfold readRegex
  generalize { l with prev := l.cur, mode := .regex }.scan = r at hscan
  generalize { m with prev := m.cur, mode := .regex }.scan = r' at hscan
  cases hscan with
  | error => exact .error
  | ok token lexer =>
    exact .ok token ⟨lexer.loaded, lexer.rest, lexer.pos, rfl, lexer.prev, token⟩

theorem Alike.opensRegex (h : Alike l m) : l.opensRegex = m.opensRegex := by
  unfold Lexer.opensRegex slashDivides
  rw [h.rest, any_kind_of_bare h.cur]

theorem raw_alike (h : Alike l m) : SameResult l.raw m.raw := by
  unfold raw
  rw [h.opensRegex]
  split
  · exact readRegex_alike h
  · exact advance_alike h

theorem countBreaks_alike (l : Lexer) (t : Token) : Alike l (l.countBreaks t) :=
  ⟨rfl, rfl, rfl, rfl, rfl, rfl⟩

/-- Handing out a token changes lines only. -/
theorem handOut_alike (l : Lexer) (t : Token) : (l.handOut t).1.bare = t.bare ∧ Alike l (l.handOut t).2 := by
  unfold handOut
  by_cases hc : l.cur = some t
  · simp only [hc, if_true]
    exact ⟨rfl, rfl, rfl, rfl, rfl, rfl, by rw [hc]; rfl⟩
  · simp only [hc, if_false]
    exact ⟨rfl, rfl, rfl, rfl, rfl, rfl, rfl⟩

theorem skipTrivia_alike (h : Alike l m) (fuel : Nat) : SameResult (skipTrivia fuel l) (skipTrivia fuel m) := by
  induction fuel generalizing l m with
  | zero => exact .ok rfl h
  | succ fuel ih =>
    have hend : l.endOf = m.endOf := by rw [endOf, endOf, h.rest]
    have hraw := raw_alike h
    rw [skipTrivia_succ, skipTrivia_succ, hend]
    generalize l.raw = r at hraw
    generalize m.raw = r' at hraw
    cases hraw with
    | error => exact .error
    | @ok t t' l₁ m₁ token lexer =>
      cases t with
      | none =>
        obtain rfl : t' = none := by simpa using token.symm
        cases m.endOf with
        | error _ => exact .error
        | ok _ => exact .ok rfl lexer
      | some t =>
        obtain ⟨t', rfl, hbare⟩ := Option.map_eq_some_iff.1 token.symm
        simp only [← kind_of_bare hbare.symm]
        split
        · exact ih ((countBreaks_alike l₁ t).symm.trans (lexer.trans (countBreaks_alike m₁ t')))
        · obtain ⟨hl, hlexer⟩ := handOut_alike l₁ t
          obtain ⟨hm, hlexer'⟩ := handOut_alike m₁ t'
          exact .ok (congrArg some (hl.trans (hbare.symm.trans hm.symm))) (hlexer.symm.trans (lexer.trans hlexer'))

/-- What is read next does not depend on lines. -/
theorem token_alike (h : Alike l m) (hl : l.pushed = []) (hm : m.pushed = []) : SameResult l.token m.token := by
  unfold token
  rw [hl, hm, ← h.loaded, ← h.rest]
  simp only
  split
  · exact skipTrivia_alike h _
  · exact .error

/-- A token that was pushed back leaves nothing but lines changed when it comes again. -/
theorem handBack_alike (l : Lexer) (t : Token) (rest : List Token) : Alike l (l.handBack t rest).2 := by
  have hrenew : ∀ o : Option Token,
      (o.map fun u => if u = t then { t with line := (l.countBreaks t).line } else u).map Token.bare = o.map Token.bare := by
    intro o
    cases o with
    | none => rfl
    | some u =>
      by_cases hu : u = t
      · simp [hu, Token.bare]
      · simp [hu]
  exact ⟨rfl, rfl, rfl, rfl, (hrenew l.prev).symm, (hrenew l.cur).symm⟩

/-- The token pushed back comes again, on the line that the lexer has reached. -/
theorem token_pushed (hp : l.pushed = [t]) :
    ∃ l', l.token = (.ok (some { t with line := l.line + t.breaks }), l') ∧ Alike l l' ∧
      l'.pushed = [] ∧ l'.line = l.line + t.breaks := by
  have hback : l.token = (.ok (some (l.handBack t []).1), (l.handBack t []).2) := by
    rw [token, hp]
  exact ⟨_, hback, handBack_alike l t [], rfl, rfl⟩

end Lexer

end JsMinify
