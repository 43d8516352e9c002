import JsMinify.Proofs.Lexer.LineNumbers
import JsMinify.Proofs.Lexer.Lower

/-!
# One text after another

A lexer that is given a new text keeps its line, its mode and the tokens that it remembers. At the end of a text it is at
rest (`Lexer.AtRest`): it takes any token again, and none is remembered or pushed back. The line and the reports of illegal
characters are all that is left of the text, so the next one is read as a new lexer reads it, further down by the line
breaks of the first (`drain_again`).
-/

namespace JsMinify

namespace Lexer

variable {l l' : Lexer} {r : Option Token} {fuel d : Nat}

/-! ## The end of a text -/

/-- What reading leaves behind: the lexer takes any token again, it is not further up, and at the end of
the text it remembers no token. -/
structure Settles (l l' : Lexer) (r : Option Token) : Prop where
  loaded : l'.loaded = l.loaded
  mode : l'.mode = .ordinary
  line : l.line ≤ l'.line
  cur : r = none → l'.cur = none

theorem raw_settles (hm : l.mode = .ordinary) (h : l.raw = (.ok r, l')) : Settles l l' r := by
  obtain ⟨mode, mode', l₁, r₁, hscan, hmode, hread⟩ := raw_ok h
  have hkept := scan_kept hscan
  have hordinary : mode' = .ordinary := by
    rcases hmode with ⟨-, -, rfl⟩ | ⟨-, -, rfl⟩
    · exact hm
    · rfl
  rcases hread with ⟨rfl, rfl⟩ | ⟨-, t, rfl, -, rfl, rfl⟩
  · exact ⟨hkept.loaded, hordinary, hkept.line, id⟩
  · exact ⟨hkept.loaded, hordinary, Nat.le_trans hkept.line (Nat.le_add_right _ _), nofun⟩

theorem skipTrivia_settles (hm : l.mode = .ordinary) (hf : l.rest.length < fuel)
    (h : skipTrivia fuel l = (.ok r, l')) : Settles l l' r := by
  induction fuel generalizing l with
  | zero => cases hf
  | succ fuel ih =>
    obtain ⟨rfl, hraw⟩ | ⟨t, m, hraw, hnext⟩ := skipTrivia_ok h
    · exact raw_settles hm hraw
    · have first := raw_settles hm hraw
      have hline := Nat.le_trans first.line (Nat.le_add_right m.line t.breaks)
      rcases hnext with ⟨-, hlater⟩ | ⟨-, rfl, rfl⟩
      · have hshort := (raw_read hraw).shorter rfl
        have later := ih (l := m.countBreaks t) first.mode (by change m.rest.length < fuel; omega) hlater
        exact ⟨later.loaded.trans first.loaded, later.mode, Nat.le_trans hline later.line, later.cur⟩
      · obtain ⟨cur, hout⟩ := handOut_eq m t
        rw [hout]
        exact ⟨first.loaded, first.mode, hline, nofun⟩

theorem token_settles (hm : l.mode = .ordinary) (h : l.token = (.ok r, l')) : Settles l l' r := by
  unfold token at h
  split at h
  · obtain ⟨hr, rfl⟩ := Prod.mk.inj h
    cases hr
    exact ⟨rfl, hm, Nat.le_add_right _ _, nofun⟩
  · split at h
    · exact skipTrivia_settles hm (Nat.lt_succ_self _) h
    · cases (Prod.mk.inj h).1

/-- A lexer between two texts: it takes any token, and nothing of the last text is pushed back or remembered. -/
structure AtRest (l : Lexer) : Prop where
  pushed : l.pushed = []
  cur : l.cur = none
  mode : l.mode = .ordinary

/-- A lexer that comes to the end of a text is at rest, with nothing left. -/
theorem drainFrom_atRest (hp : l.pushed = []) (hm : l.mode = .ordinary) (hf : l.rest.length < fuel)
    (h : (drainFrom fuel l).2.1 = .ok ()) : (drainFrom fuel l).2.2.AtRest ∧ (drainFrom fuel l).2.2.rest = [] := by
  induction fuel generalizing l with
  | zero => cases hf
  | succ fuel ih =>
    rw [drainFrom] at h ⊢
    rcases htoken : l.token with ⟨e | _ | t, l'⟩
    · rw [htoken] at h
      cases h
    · have hend := token_settles hm htoken
      exact ⟨⟨token_pushed_nil hp htoken, hend.cur rfl, hend.mode⟩, (token_read hp htoken).ended rfl⟩
    · rw [htoken] at h
      have hshort := (token_read hp htoken).shorter rfl
      exact ih (token_pushed_nil hp htoken) (token_settles hm htoken).mode (by omega) h

/-! ## The next text -/

/-- The first token of the next text is read as by a new lexer, further down. -/
theorem AtRest.token_input (h : l.AtRest) (hline : l.line = 1 + d) (u : String) :
    (l.input u).token = ((({} : Lexer).input u).lower d l.illegal).token := by
  -- Both lexers differ in what they remember as the token before the last one.
  have hinput : l.input u = { (({} : Lexer).input u).lower d l.illegal with prev := l.prev } := by
    simp only [input, lower, hline, h.pushed, h.cur, h.mode, Option.map_none, List.map_nil, List.append_nil]
  rw [hinput]
  exact token_prev rfl rfl _

/-- Reading to the end of a text further down. -/
theorem drainFrom_lower (d : Nat) (old : List IllegalChar) (fuel : Nat) (l : Lexer) :
    drainFrom fuel (l.lower d old) = ((drainFrom fuel l).1.map (Token.lower d),
      (drainFrom fuel l).2.1.mapError (LexError.lower d), (drainFrom fuel l).2.2.lower d old) := by
  induction fuel generalizing l with
  | zero => rfl
  | succ fuel ih =>
    rw [drainFrom, drainFrom, token_lower]
    rcases l.token with ⟨e | _ | t, l'⟩
    · rfl
    · rfl
    · simp only [lowerResult, Option.map_some, ih, List.map_cons]

theorem AtRest.drain_input (h : l.AtRest) (hline : l.line = 1 + d) (u : String) :
    (l.input u).drain = ((tokenize u).1.map (Token.lower d), (tokenize u).2.1.mapError (LexError.lower d),
      (tokenize u).2.2.lower d l.illegal) := by
  have hdrain : (l.input u).drain = drainFrom (u.toList.length + 1) (l.input u) := by
    rw [drain, show (l.input u).pushed = [] from h.pushed, List.length_nil, Nat.zero_add]
    rfl
  have hnew : tokenize u = drainFrom (u.toList.length + 1) (({} : Lexer).input u) := by
    rw [tokenize, drain]
    exact congrArg (drainFrom · _) (congrArg (· + 1) (Nat.zero_add _))
  rw [hdrain, hnew, ← drainFrom_lower, drainFrom, drainFrom, h.token_input hline]

end Lexer

/-- A lexer that has read a text to its end reads the next text as a new lexer does: it hands out the same tokens and ends
as the new one does, each line larger by the line breaks of the first text. -/
theorem drain_again {t u : String} {ts : List Token} {l : Lexer} (h : tokenize t = (ts, .ok (), l)) :
    (l.input u).drain.1 = (tokenize u).1.map (Token.lower (lineBreaks t.toList)) ∧
      (l.input u).drain.2.1 = (tokenize u).2.1.mapError (LexError.lower (lineBreaks t.toList)) := by
  have hok : (tokenize t).2.1 = .ok () := by rw [h]
  have hend : (tokenize t).2.2.AtRest ∧ (tokenize t).2.2.rest = [] :=
    Lexer.drainFrom_atRest rfl rfl (Nat.lt_succ_of_le (Nat.le_add_left _ _)) hok
  have hat : (tokenize t).2.2.At t.toList := (Lexer.drainFrom_onLine (input_at t) rfl).2 hok
  rw [h] at hend hat
  have hall : t.toList.length ≤ l.pos := List.drop_eq_nil_iff.1 (hat.rest.symm.trans hend.2)
  have hline : l.line = 1 + lineBreaks t.toList := by rw [hat.line, List.take_of_length_le hall]
  rw [hend.1.drain_input hline]
  exact ⟨rfl, rfl⟩

/-- A slash is read as in a new lexer, and the string without an end is the error of both. -/
theorem drain_again_to_error : ∃ ts l, tokenize "/a/\n'\\\nb'" = (ts, .ok (), l) ∧
      (l.input "b /a\n'").drain.2.1 = (tokenize "b /a\n'").2.1.mapError (LexError.lower 2) ∧
      (l.input "b /a\n'").drain.1 = [⟨.identifier, "b", 3, 0⟩, ⟨.divide, "/", 3, 2⟩, ⟨.identifier, "a", 3, 3⟩] := by
  refine ⟨_, _, rfl, (drain_again (t := "/a/\n'\\\nb'") rfl).2, ?_⟩
  exact (drain_again (t := "/a/\n'\\\nb'") rfl).1.trans (by decide)

end JsMinify
