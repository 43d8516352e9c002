import JsMinify.Proofs.Lexer.Account

/-!
# Lines and positions

A lexer that reads a text stands at a position, and the line it counts is that of the position (`Lexer.At`). Line
breaks are counted in several places: for what is passed over, for a semicolon that stands for a line break, for the
continued lines of a string before they are joined, and for a token when it is handed out. Every raw token brings the
count from its position to its end (`Lexer.raw_fetched`), so each token carries the line on which its lexeme ends
(`token_line_eq`).
-/

namespace JsMinify

open Lexeme List

variable {l l' : Lexer} {s : List Char} {pos : Nat} {r : Option Token}

/-- The token comes from the first `n` characters of a text: its text is these, with the lines of a string joined, or
it is a semicolon that stands for a line break. -/
def Token.IsFrom (t : Token) (s : List Char) (n : Nat) : Prop :=
  n ≤ s.length ∧ (t.text.toList = Lexer.joined t.kind (s.take n) ∧ (t.kind = .string → string? s = some n) ∨
      t.kind = .semi ∧ s.take n = ['\n'])

theorem lineBreaks_append (s t : List Char) : lineBreaks (s ++ t) = lineBreaks s + lineBreaks t :=
  count_append

theorem lineBreaks_cons (c : Char) (s : List Char) : lineBreaks (c :: s) = lineBreaks [c] + lineBreaks s :=
  lineBreaks_append [c] s

/-- Each line break of a text is a continued one, or is left when these are joined. -/
theorem lineBreaks_joinLines (s : List Char) : lineBreaks s = continuations s + lineBreaks (joinLines s) := by
  fun_induction joinLines s with
  | case1 s ih =>
    have hpair : lineBreaks ['\\'] = 0 ∧ lineBreaks ['\n'] = 1 := by decide
    rw [continuations, lineBreaks_cons '\\', lineBreaks_cons '\n', ih]
    omega
  | case2 c s hne ih =>
    rw [continuations.eq_2 c s hne, lineBreaks_cons, lineBreaks_cons c (joinLines s), ih]
    omega
  | case3 => rfl

namespace Lexer

/-- The lexer has read the text up to its position, and its line is the one there. -/
structure At (text : List Char) (l : Lexer) : Prop where
  rest : l.rest = text.drop l.pos
  line : l.line = 1 + lineBreaks (text.take l.pos)

/-- A raw token was read that comes from the `n` characters before the position. Its own line breaks are still to be
counted. -/
structure Fetched (text : List Char) (l : Lexer) (t : Token) (n : Nat) : Prop where
  rest : l.rest = text.drop l.pos
  line : l.line + t.breaks = 1 + lineBreaks (text.take l.pos)
  pos : l.pos = t.pos + n
  source : t.IsFrom (text.drop t.pos) n
  lineEnd : t.kind = .lineEnd → (text.drop t.pos).take n = ['\n']

/-! ## Raw tokens -/

variable {text : List Char}

theorem take_fetched {k : TokenKind} {n : Nat} (hs : s = text.drop pos) (hline : l.line = 1 + lineBreaks (text.take pos))
    (hrule : l.rule? s = some (k, n)) : Fetched text (l.take s pos k n).2 (l.take s pos k n).1 n := by
  have hform := form_of_lexer_rule? hrule
  have hdrop : s.drop n = text.drop (pos + n) := by rw [hs, drop_drop]
  have hcount : lineBreaks (text.take (pos + n)) = lineBreaks (text.take pos) + lineBreaks (s.take n) := by
    rw [take_add, lineBreaks_append, hs]
  unfold take
  by_cases hk : k = .string
  · have hjoined := lineBreaks_joinLines (s.take n)
    subst hk
    refine ⟨hdrop, ?_, rfl, ?_, nofun⟩
    · simp only [if_true, Token.breaks, String.toList_ofList]
      omega
    · simp only [if_true, ← hs]
      exact ⟨hform.le, .inl ⟨String.toList_ofList, fun _ => hform.string?_eq rfl⟩⟩
  · simp only [hk, if_false]
    refine ⟨hdrop, ?_, rfl, ?_, fun hend => ?_⟩
    · simp only [Token.breaks, String.toList_ofList]
      omega
    · rw [← hs]
      refine ⟨hform.le, .inl ⟨?_, fun h => absurd h hk⟩⟩
      rw [joined, if_neg hk, String.toList_ofList]
    · obtain ⟨r, hr, rfl⟩ := hform.lineEnd_eq hend
      rw [← hs, hr]
      rfl

/-- A character that is passed over is no line break. -/
theorem line_succ {c : Char} (hs : c :: s = text.drop pos) (hc : c ≠ '\n') :
    s = text.drop (pos + 1) ∧ lineBreaks (text.take (pos + 1)) = lineBreaks (text.take pos) := by
  constructor
  · rw [← drop_drop, ← hs]
    rfl
  · have hnone : lineBreaks [c] = 0 := count_eq_zero.2 (by simpa using hc.symm)
    rw [take_add, lineBreaks_append, ← hs]
    exact congrArg (lineBreaks (text.take pos) + ·) hnone

theorem scanFrom_fetched (hs : s = text.drop pos) (hline : l.line = 1 + lineBreaks (text.take pos))
    (h : l.scanFrom s pos = (.ok r, l')) : (r = none → At text l') ∧ ∀ t, r = some t → ∃ n, Fetched text l' t n := by
  induction s generalizing l pos with
  | nil =>
    obtain ⟨hr, rfl⟩ := Prod.mk.inj h
    cases hr
    have hle : text.length ≤ pos := drop_eq_nil_iff.1 hs.symm
    have hle' : text.length ≤ pos + 1 := Nat.le_succ_of_le hle
    refine ⟨fun _ => ⟨(drop_eq_nil_of_le hle').symm, ?_⟩, fun _ ht => by cases ht⟩
    rw [take_of_length_le hle']
    rwa [take_of_length_le hle] at hline
  | cons c s ih =>
    rw [scanFrom] at h
    split at h
    · next hc =>
      obtain ⟨hs', hcount⟩ := line_succ hs (by rintro rfl; cases hc)
      exact ih hs' (by rw [hcount, hline]) h
    · split at h
      · next k n hrule =>
        obtain ⟨hr, rfl⟩ := Prod.mk.inj h
        cases hr
        refine ⟨fun ht => (by cases ht), fun t ht => ?_⟩
        cases ht
        exact ⟨n, take_fetched hs hline hrule⟩
      · next hrule =>
        split at h
        · next hm =>
          have hc : c ≠ '\n' := by
            rintro rfl
            simp only [Lexer.rule?, hm, rule?_break] at hrule
            cases hrule
          obtain ⟨hs', hcount⟩ := line_succ hs hc
          exact ih (l := { l with illegal := _ }) hs' (by rw [hcount]; exact hline) h
        · cases (Prod.mk.inj h).1

/-- A raw token that is read brings the count to its end. -/
theorem raw_fetched (hl : At text l) (h : l.raw = (.ok r, l')) :
    (r = none → At text l') ∧ ∀ t, r = some t → ∃ n, Fetched text l' t n := by
  obtain ⟨mode, mode', l₁, r₁, hscan, -, ⟨rfl, rfl⟩ | ⟨-, t, rfl, hk, rfl, rfl⟩⟩ := raw_ok h
  · obtain ⟨hend, hsome⟩ := scanFrom_fetched (l := { l with prev := l.cur, mode := mode }) hl.rest hl.line hscan
    exact ⟨fun hr => ⟨(hend hr).rest, (hend hr).line⟩, fun t ht =>
      (hsome t ht).imp fun n hn => ⟨hn.rest, hn.line, hn.pos, hn.source, hn.lineEnd⟩⟩
  · -- The line break that the semicolon stands for is counted at once.
    obtain ⟨n, hn⟩ := (scanFrom_fetched (l := { l with prev := l.cur, mode := mode }) hl.rest hl.line hscan).2 t rfl
    have hsemi : lineBreaks ";".toList = 0 := by decide
    refine ⟨nofun, fun u hu => ⟨n, ?_⟩⟩
    cases hu
    exact ⟨hn.rest, by rw [← hn.line]; exact congrArg (l₁.line + t.breaks + ·) hsemi, hn.pos,
      ⟨hn.source.1, .inr ⟨rfl, hn.lineEnd hk⟩⟩, nofun⟩

end Lexer

/-! ## Tokens -/

/-- The token carries the line on which its lexeme ends. -/
def Token.OnLine (text : List Char) (t : Token) : Prop :=
  ∃ n, t.IsFrom (text.drop t.pos) n ∧ t.line = 1 + lineBreaks (text.take (t.pos + n))

namespace Lexer

variable {text : List Char} {fuel : Nat}

theorem skipTrivia_onLine (hl : At text l) (h : skipTrivia fuel l = (.ok r, l')) :
    At text l' ∧ ∀ t, r = some t → t.OnLine text := by
  induction fuel generalizing l with
  | zero =>
    obtain ⟨hr, rfl⟩ := Prod.mk.inj h
    cases hr
    exact ⟨hl, nofun⟩
  | succ fuel ih =>
    obtain ⟨rfl, hraw⟩ | ⟨t, m, hraw, hnext⟩ := skipTrivia_ok h
    · exact ⟨(raw_fetched hl hraw).1 rfl, nofun⟩
    · obtain ⟨n, hn⟩ := (raw_fetched hl hraw).2 t rfl
      rcases hnext with ⟨-, hlater⟩ | ⟨-, rfl, rfl⟩
      · exact ih (l := m.countBreaks t) ⟨hn.rest, hn.line⟩ hlater
      · obtain ⟨cur, hout⟩ := handOut_eq m t
        rw [hout]
        refine ⟨⟨hn.rest, hn.line⟩, fun u hu => ?_⟩
        cases hu
        exact ⟨n, hn.source, by rw [← hn.pos]; exact hn.line⟩

/-- Reading to the end of a text, or to an error, hands out tokens with their lines. -/
theorem drainFrom_onLine (hl : At text l) (hp : l.pushed = []) : (∀ t ∈ (drainFrom fuel l).1, t.OnLine text) ∧
      ((drainFrom fuel l).2.1 = .ok () → At text (drainFrom fuel l).2.2) := by
  induction fuel generalizing l with
  | zero => exact ⟨forall_mem_nil _, fun _ => hl⟩
  | succ fuel ih =>
    have hread : ∀ {r l'}, l.token = (.ok r, l') → At text l' ∧ ∀ t, r = some t → t.OnLine text :=
      fun h => skipTrivia_onLine hl (token_ok hp h)
    rw [drainFrom]
    split
    · exact ⟨forall_mem_nil _, fun h => by cases h⟩
    · next htoken => exact ⟨forall_mem_nil _, fun _ => (hread htoken).1⟩
    · next t l' htoken =>
      obtain ⟨hl', ht⟩ := hread htoken
      obtain ⟨hlater, hend⟩ := ih hl' (token_pushed_nil hp htoken)
      exact ⟨forall_mem_cons.2 ⟨ht t rfl, hlater⟩, hend⟩

end Lexer

theorem input_at (text : String) : (({} : Lexer).input text).At text.toList := ⟨rfl, rfl⟩

/-- Every token of a text, up to its end or an error, carries the line on which its lexeme ends: one more than the line
breaks in the text before the end of the lexeme. A semicolon that stands for a line break carries the line behind it. -/
theorem token_line_eq {text : String} {t : Token} (h : t ∈ (tokenize text).1) :
    ∃ n, t.IsFrom (text.toList.drop t.pos) n ∧ t.line = 1 + lineBreaks (text.toList.take (t.pos + n)) :=
  (Lexer.drainFrom_onLine (input_at text) rfl).1 t h

/-- The line breaks before a string and inside it are counted, and the one that ends a `return`. -/
theorem token_line_behind_breaks : ∃ t ∈ (tokenize "return\n'a\\\nb'").1, t.kind = .string ∧ t.line = 3 ∧
      ∃ n, t.IsFrom ("return\n'a\\\nb'".toList.drop t.pos) n ∧
        t.line = 1 + lineBreaks ("return\n'a\\\nb'".toList.take (t.pos + n)) := by
  have hmem : (⟨.string, "'ab'", 3, 7⟩ : Token) ∈ (tokenize "return\n'a\\\nb'").1 := by decide
  exact ⟨_, hmem, rfl, rfl, token_line_eq hmem⟩

end JsMinify
