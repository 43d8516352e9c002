import JsMinify.Proofs.Lexer.Drained
import JsMinify.Proofs.Lexer.Gaps

/-!
# When reading fails

Reading a token passes over line breaks and comments in rounds (`Rounds`). It fails at a slash that must open a regular
expression and opens none, and where more than one character is left and none of them begins a lexeme.
`token_fails_iff` says that there is no other failure.

The two failures leave the lexer in different states. Behind a missing regular expression it goes on to look for one, in
the next text as well. `mode_after_calls` says what mode the lexer is in after any calls, by their results alone.
-/

namespace JsMinify.Lexer

open Lexeme TokenKind Option Lexer

variable {l l' m : Lexer} {last last' : Option TokenKind} {s x : List Char} {us : List Token} {e : LexError} {text : String}

/-! ## One raw token -/

/-- Behind a raw token of the kind `last` a regular expression must begin here, and none does. -/
def MissesRegex (last : Option TokenKind) (s : List Char) : Prop :=
  opensSlash s = true ∧ last.any (·.endsOperand) = false ∧ regex? s = none

/-- More than one character is left, and nothing but blanks and characters that begin no lexeme. -/
def Starves (s : List Char) : Prop := 2 ≤ s.length ∧ Idle s []

theorem idle_dropWhile : Idle (s.dropWhile isBlank) x ↔ Idle s x := by
  induction s with
  | nil => rfl
  | cons c s ih =>
    cases hc : isBlank c with
    | true =>
      rw [List.dropWhile_cons_of_pos hc, ih]
      exact ⟨fun h => ⟨.inl hc, h⟩, And.right⟩
    | false => rw [List.dropWhile_cons_of_neg (by simp [hc])]

theorem endOf_eq (l : Lexer) : l.endOf = if 2 ≤ (l.rest.dropWhile isBlank).length then .error .onlyIllegal else .ok none := by
  unfold endOf
  split
  · next h => rw [h, if_pos (by simp)]
  · next h =>
    rw [if_neg fun hlen => ?_]
    rcases hs : l.rest.dropWhile isBlank with _ | ⟨c, _ | ⟨d, s⟩⟩
    · rw [hs] at hlen
      cases hlen
    · rw [hs] at hlen
      simp at hlen
    · exact h c d s hs

theorem opensRegex_iff : l.opensRegex ↔
    opensSlash (l.rest.dropWhile isBlank) ∧ (l.cur.map (·.kind)).any (·.endsOperand) = false := by
  rw [opensRegex_eq rfl, slashDivides_eq, Bool.and_eq_true, Bool.not_eq_true']

/-- Only a regular expression can be missed. -/
theorem raw_error (hm : l.mode = .ordinary) (h : l.raw = (.error e, l')) :
    MissesRegex (l.cur.map (·.kind)) (l.rest.dropWhile isBlank) ∧ (∃ rest line, e = .badRegex rest line) ∧
      l'.mode = .regex ∧ l'.loaded = l.loaded ∧ l'.cur = l.cur := by
  unfold raw at h
  split at h
  · next hopen =>
    unfold readRegex at h
    split at h
    · next hscan =>
      cases h
      cases scan_scanned hscan with
      | stuck _ none => exact ⟨⟨(opensRegex_iff.1 hopen).1, (opensRegex_iff.1 hopen).2, none⟩, ⟨_, _, rfl⟩, rfl, rfl, rfl⟩
    · cases (Prod.mk.inj h).1
  · rcases advance_cases l with ⟨e, l₁, hscan, -⟩ | ⟨l₁, -, ha⟩ | ⟨t, l₁, -, ha | ⟨-, ha⟩⟩
    · cases scan_scanned hscan with
      | stuck mode => cases hm.symm.trans mode
    all_goals
      rw [ha] at h
      cases (Prod.mk.inj h).1

theorem raw_of_missesRegex (h : MissesRegex (l.cur.map (·.kind)) (l.rest.dropWhile isBlank)) :
    ∃ rest line l', l.raw = (.error (.badRegex rest line), l') := by
  obtain ⟨hopen, hlast, hnone⟩ := h
  rw [raw, if_pos (opensRegex_iff.2 ⟨hopen, hlast⟩)]
  unfold opensSlash at hopen
  split at hopen
  · next d r hs =>
    unfold readRegex scan
    rw [scanFrom_dropWhile]
    simp only [hs]
    rw [scanFrom, if_neg (by decide)]
    simp only [rule?, ← hs, hnone, map_none]
    exact ⟨_, _, _, rfl⟩
  · cases hopen

theorem raw_of_idle (hm : l.mode = .ordinary) (h : Idle l.rest []) : ∃ l', l.raw = (.ok none, l') := by
  have hopen : l.opensRegex = false := by
    rw [opensRegex_eq rfl, ← List.append_nil l.rest, opensSlash_idle h rfl]
    rfl
  obtain ⟨rs, hidle⟩ := scanFrom_idle (l := { l with prev := l.cur }) h hm l.pos
  rw [List.append_nil] at hidle
  unfold raw advance scan
  rw [hopen]
  simp only [hidle]
  exact ⟨_, rfl⟩

theorem idle_of_raw (hm : l.mode = .ordinary) (h : l.raw = (.ok none, l')) : Idle l.rest [] ∧ l'.mode = .ordinary := by
  obtain ⟨mode, mode', l₁, r₁, hscan, hmode, ⟨rfl, rfl⟩ | ⟨-, t, -, -, hr, -⟩⟩ := raw_ok h
  · cases scan_scanned hscan with
    | ended passes =>
      rcases hmode with ⟨-, rfl, rfl⟩ | ⟨hopen, rfl, -⟩
      · exact ⟨passes.idle hm, hm⟩
      · -- A slash is no blank.
        have hslash := (opensRegex_iff.1 hopen).1
        rw [List.dropWhile_eq_nil_iff.2 (passes.blanks rfl)] at hslash
        cases hslash
  · cases hr

/-- A line break or a comment that was read. -/
theorem raw_trivia_split (hl : l.Plain) {t : Token} (h : l.raw = (.ok (some t), l')) (ht : t.kind.isTrivia) :
    ∃ g v n, l.rest = g ++ v ∧ Idle g v ∧ Lexeme.rule? v = some (t.kind, n) ∧ l'.rest = v.drop n ∧
      (t.kind ≠ .lineEnd ∨ (l.cur.map (·.kind)).any (·.isRestricted) = false) := by
  obtain ⟨mode, mode', l₁, r₁, hscan, hmode, ⟨rfl, rfl⟩ | ⟨-, u, -, -, hr, -⟩⟩ := raw_ok h
  · cases scan_scanned hscan with
    | @lexeme g v k n _ _ _ text passes _ rule =>
      rcases hmode with ⟨-, rfl, rfl⟩ | ⟨-, rfl, -⟩
      · have hrule : Lexeme.rule? v = some (k, n) := by simpa only [rule?, hl.mode] using rule
        refine ⟨g, v, n, text, passes.idle hl.mode, hrule, rfl, ?_⟩
        obtain ⟨u, l₂, -, -, -, -, hraw⟩ := raw_trivial hl text (passes.idle hl.mode) hrule ht
        by_contra hbreak
        simp only [not_or, not_not, Bool.not_eq_false, any_map] at hbreak
        rw [if_pos (by simpa using hbreak), h] at hraw
        rw [some.inj (Except.ok.inj (Prod.mk.inj hraw).1)] at ht
        cases ht
      · obtain ⟨_, -, he⟩ := map_eq_some_iff.1 rule
        cases he
        cases ht
  · cases hr
    cases ht

/-! ## Rounds -/

/-- The rounds in which line breaks and comments are passed over, from the text `s` behind a raw token of the kind `last`
to the text `s'` behind one of the kind `last'`. Each round passes over one of them, with what is idle before it. A line
break behind a restricted word is not passed over, since it ends a statement. A round starts behind the next blanks. -/
inductive Rounds : Option TokenKind → List Char → Option TokenKind → List Char → Prop where
  | here {last : Option TokenKind} {s : List Char} : Rounds last s last (s.dropWhile isBlank)
  | next {last last' : Option TokenKind} {g v s : List Char} {k : TokenKind} {n : Nat} (idle : Idle g v)
      (lexeme : Lexeme.rule? v = some (k, n)) (trivia : k.isTrivia = true)
      (free : k ≠ .lineEnd ∨ last.any (·.isRestricted) = false) (more : Rounds (some k) (v.drop n) last' s) :
      Rounds last (g ++ v) last' s

theorem Rounds.skips (h : Rounds last x last' s) (hl : l.Plain) (hx : l.rest = x) (hlast : l.cur.map (·.kind) = last) :
    ∃ us m, Skips l us m ∧ m.cur.map (·.kind) = last' ∧ m.rest.dropWhile isBlank = s := by
  induction h generalizing l with
  | here => exact ⟨[], l, .nil, hlast, by rw [hx]⟩
  | next idle lexeme trivia free _ ih =>
    obtain ⟨t, l', hkind, hrest, hcur, hplain, hraw⟩ := raw_trivial hl hx idle lexeme trivia
    have hread : l.raw = (.ok (some t), l') := by
      rw [hraw, if_neg fun hbreak => ?_]
      rw [Bool.and_eq_true, decide_eq_true_eq] at hbreak
      rw [← hlast, any_map] at free
      exact free.elim (· hbreak.1) fun hfree => by cases hbreak.2.symm.trans hfree
    obtain ⟨us, m, hskips, hm⟩ := ih (l := l'.countBreaks t) ⟨hplain.loaded, hplain.mode, hplain.pushed⟩ hrest
      (show l'.cur.map (·.kind) = _ by rw [hcur, map_some, hkind])
    exact ⟨t :: us, m, .cons hread (hkind ▸ trivia) hskips, hm⟩

theorem Skips.rounds (h : Skips l us m) (hl : l.Plain) :
    Rounds (l.cur.map (·.kind)) l.rest (m.cur.map (·.kind)) (m.rest.dropWhile isBlank) := by
  induction h with
  | nil => exact .here
  | @cons l l' m t us next trivia more ih =>
    obtain ⟨g, v, n, hrest, hidle, hrule, hrest', hfree⟩ := raw_trivia_split hl next trivia
    obtain ⟨_, _, _, found, -⟩ := raw_found hl next
    have hlater := ih ⟨found.plain.loaded, found.plain.mode, found.plain.pushed⟩
    change Rounds (l'.cur.map (·.kind)) l'.rest _ _ at hlater
    rw [raw_trivia next trivia, hrest'] at hlater
    rw [hrest]
    exact .next hidle hrule trivia hfree hlater

/-- Behind the rounds that come before, a call goes on with the next one. -/
theorem Skips.token (h : Skips l us m) (hl : l.Plain) : ∃ fuel, l.token = Lexer.skipTrivia (fuel + 1) m := by
  have hlen := h.length_le
  refine ⟨l.rest.length - us.length, ?_⟩
  rw [token_eq_skipTrivia hl, ← h.skipTrivia]
  congr 1
  omega

/-- A call that fails does so in one of its rounds. -/
theorem skipTrivia_error {fuel : Nat} (hl : l.Plain) (h : Lexer.skipTrivia fuel l = (.error e, l')) : ∃ us m, Skips l us m ∧
      (MissesRegex (m.cur.map (·.kind)) (m.rest.dropWhile isBlank) ∧ (∃ rest line, e = .badRegex rest line) ∧
          l'.mode = .regex ∧ l'.loaded ∧ l'.cur = m.cur ∨
        Starves (m.rest.dropWhile isBlank) ∧ e = .onlyIllegal ∧ l'.mode = .ordinary) := by
  induction fuel generalizing l with
  | zero => cases (Prod.mk.inj h).1
  | succ fuel ih =>
    rw [skipTrivia_succ] at h
    rcases hraw : l.raw with ⟨e₁ | _ | t, l₁⟩
    · rw [hraw] at h
      cases h
      obtain ⟨hmiss, he, hmode, hloaded, hcur⟩ := raw_error hl.mode hraw
      exact ⟨[], l, .nil, .inl ⟨hmiss, he, hmode, hloaded.trans hl.loaded, hcur⟩⟩
    · obtain ⟨hidle, hmode⟩ := idle_of_raw hl.mode hraw
      rw [hraw, endOf_eq] at h
      simp only at h
      split at h
      · next hlen =>
        cases h
        exact ⟨[], l, .nil, .inr ⟨⟨hlen, idle_dropWhile.2 hidle⟩, rfl, hmode⟩⟩
      · cases (Prod.mk.inj h).1
    · rw [hraw] at h
      simp only at h
      split at h
      · next ht =>
        obtain ⟨_, _, _, found, -⟩ := raw_found hl hraw
        obtain ⟨us, m, hskips, hfails⟩ := ih (l := l₁.countBreaks t) ⟨found.plain.loaded, found.plain.mode, found.plain.pushed⟩ h
        exact ⟨t :: us, m, .cons hraw ht hskips, hfails⟩
      · cases (Prod.mk.inj h).1

/-! ## Calls that return -/

/-- A lexer after one text was given to it and some calls have returned a token, or nothing at the end of the text. -/
inductive Returned (text : String) : Lexer → Prop where
  | input : Returned text (({} : Lexer).input text)
  | token {m m' : Lexer} {r : Option Token} (before : Returned text m) (next : m.token = (.ok r, m')) : Returned text m'

theorem Returned.plain (h : Returned text m) : m.Plain := by
  induction h with
  | input => exact ⟨rfl, rfl, rfl⟩
  | token _ next ih =>
    have hend := token_settles ih.mode next
    exact ⟨hend.loaded.trans ih.loaded, hend.mode, token_pushed_nil ih.pushed next⟩

/-- The next call fails at a regular expression exactly if one of its rounds starts where a regular expression is missing,
and it fails for want of lexemes exactly if one of its rounds starts where more than one character and no lexeme is left.
In all other cases it returns. -/
theorem token_fails_iff (h : Returned text m) : ((∃ rest line, m.token.1 = .error (.badRegex rest line)) ↔
      ∃ last s, Rounds (m.cur.map (·.kind)) m.rest last s ∧ MissesRegex last s) ∧
    (m.token.1 = .error .onlyIllegal ↔ ∃ last s, Rounds (m.cur.map (·.kind)) m.rest last s ∧ Starves s) ∧
    ((∃ r, m.token.1 = .ok r) ↔
      ∀ last s, Rounds (m.cur.map (·.kind)) m.rest last s → ¬MissesRegex last s ∧ ¬Starves s) := by
  have hplain := h.plain
  have hmiss : (∃ last s, Rounds (m.cur.map (·.kind)) m.rest last s ∧ MissesRegex last s) →
      ∃ rest line, m.token.1 = .error (.badRegex rest line) := by
    rintro ⟨last, s, rounds, miss⟩
    obtain ⟨us, m₁, hskips, rfl, rfl⟩ := rounds.skips hplain rfl rfl
    obtain ⟨rest, line, l', hraw⟩ := raw_of_missesRegex miss
    obtain ⟨fuel, htoken⟩ := hskips.token hplain
    exact ⟨rest, line, by rw [htoken, skipTrivia_succ, hraw]⟩
  have hstarve : (∃ last s, Rounds (m.cur.map (·.kind)) m.rest last s ∧ Starves s) → m.token.1 = .error .onlyIllegal := by
    rintro ⟨last, s, rounds, starves⟩
    obtain ⟨us, m₁, hskips, -, rfl⟩ := rounds.skips hplain rfl rfl
    obtain ⟨l', hraw⟩ := raw_of_idle (hskips.plain hplain).mode (idle_dropWhile.1 starves.2)
    obtain ⟨fuel, htoken⟩ := hskips.token hplain
    rw [htoken, skipTrivia_succ, hraw, endOf_eq, if_pos starves.1]
  have hfails : ∀ e, m.token.1 = .error e → ∃ last s, Rounds (m.cur.map (·.kind)) m.rest last s ∧
      (MissesRegex last s ∧ (∃ rest line, e = .badRegex rest line) ∨ Starves s ∧ e = .onlyIllegal) := by
    intro e he
    have hskip := (token_eq_skipTrivia hplain).symm.trans (Prod.ext he rfl : m.token = (.error e, m.token.2))
    obtain ⟨us, m₁, hskips, hround⟩ := skipTrivia_error hplain hskip
    exact ⟨_, _, hskips.rounds hplain, hround.imp (fun miss => ⟨miss.1, miss.2.1⟩) fun starves => ⟨starves.1, starves.2.1⟩⟩
  refine ⟨⟨fun ⟨rest, line, he⟩ => ?_, hmiss⟩, ⟨fun he => ?_, hstarve⟩, fun ⟨r, hr⟩ last s rounds => ⟨fun miss => ?_, fun starves => ?_⟩,
    fun hnone => ?_⟩
  · obtain ⟨last, s, rounds, ⟨miss, -⟩ | ⟨-, heq⟩⟩ := hfails _ he
    · exact ⟨last, s, rounds, miss⟩
    · cases heq
  · obtain ⟨last, s, rounds, ⟨-, _, _, heq⟩ | ⟨starves, -⟩⟩ := hfails _ he
    · cases heq
    · exact ⟨last, s, rounds, starves⟩
  · obtain ⟨rest, line, he⟩ := hmiss ⟨last, s, rounds, miss⟩
    cases hr.symm.trans he
  · cases hr.symm.trans (hstarve ⟨last, s, rounds, starves⟩)
  · cases htoken : m.token.1 with
    | ok r => exact ⟨r, rfl⟩
    | error e =>
      obtain ⟨last, s, rounds, hround⟩ := hfails e htoken
      exact absurd hround (not_or.2 ⟨fun miss => (hnone _ _ rounds).1 miss.1, fun starves => (hnone _ _ rounds).2 starves.1⟩)

/-- Behind `a` a stray character, a line break and a slash without an end are left, and of the other text two stray
characters. -/
theorem token_fails_behind_stray_chars : (∃ m, Returned "a #\n/b" m ∧ ∃ rest line, m.token.1 = .error (.badRegex rest line)) ∧
      (({} : Lexer).input "\n##").token.1 = .error .onlyIllegal := by
  have read : Returned "a #\n/b" (({} : Lexer).input "a #\n/b").token.2 :=
    .token (r := some ⟨.identifier, "a", 1, 0⟩) .input (by decide)
  have rounds : Rounds (some .identifier) (" #".toList ++ "\n/b".toList) (some .lineEnd) "/b".toList :=
    .next (k := .lineEnd) (n := 1) ⟨.inl rfl, .inr (by decide), trivial⟩ (by decide) rfl (.inr rfl) (.here (s := "/b".toList))
  have rounds' : Rounds none ([] ++ "\n##".toList) (some .lineEnd) "##".toList :=
    .next (k := .lineEnd) (n := 1) trivial (by decide) rfl (.inr rfl) (.here (s := "##".toList))
  exact ⟨⟨_, read, (token_fails_iff read).1.2 ⟨_, _, rounds, by decide, by decide, by decide⟩⟩,
    (token_fails_iff .input).2.1.2 ⟨_, _, rounds', by decide, .inr (by decide), .inr (by decide), trivial⟩⟩

/-! ## The mode after a call -/

/-- A call on a lexer. -/
inductive Call where
  | input (text : String)
  | token
  deriving DecidableEq, Repr

/-- What calls for tokens gave, one after another, and the lexer after the last call. -/
def calls : Lexer → List Call → List (Except LexError (Option Token)) × Lexer
  | l, [] => ([], l)
  | l, .input text :: cs => calls (l.input text) cs
  | l, .token :: cs => (l.token.1 :: (calls l.token.2 cs).1, (calls l.token.2 cs).2)

/-- A lexer between two calls: nothing is pushed back, and where a regular expression is looked for, a slash opens one. -/
structure Steady (l : Lexer) : Prop where
  pushed : l.pushed = []
  slash : l.mode = .regex → l.loaded = true ∧ l.slashDivides = false

/-- Where a regular expression is looked for, one is read or missed, unless the text is at its end. -/
theorem raw_in_regex (hm : l.mode = .regex) (hdiv : l.slashDivides = false) :
    (∃ t l', l.raw = (.ok (some t), l') ∧ t.kind = .regex ∧ l'.mode = .ordinary) ∨
      (∃ l', l.raw = (.ok none, l') ∧ l.endOf = .ok none ∧ l'.mode = .regex ∧ l'.loaded = l.loaded ∧ l'.cur = none) ∨
      ∃ rest line l', l.raw = (.error (.badRegex rest line), l') ∧ l'.mode = .regex ∧ l'.loaded = l.loaded ∧ l'.cur = l.cur := by
  have hsame : { l with prev := l.cur, mode := .regex } = { l with prev := l.cur } := by rw [← hm]
  generalize hscan : { l with prev := l.cur }.scan = x
  cases scan_scanned hscan with
  | ended passes =>
    have hdrop : l.rest.dropWhile isBlank = [] := List.dropWhile_eq_nil_iff.2 (passes.blanks hm)
    have hraw : l.raw = l.advance := by rw [raw, opensRegex_eq hdrop]; rfl
    rw [hraw, advance, hscan]
    exact .inr (.inl ⟨_, rfl, by rw [endOf_eq, hdrop]; rfl, hm, rfl, rfl⟩)
  | lexeme text passes head rule =>
    simp only [rule?, hm] at rule
    obtain ⟨n, hregex, he⟩ := map_eq_some_iff.1 rule
    cases he
    have hdrop : l.rest.dropWhile isBlank = _ := text ▸ dropWhile_blanks (passes.blanks hm) head
    have hraw : l.raw = l.readRegex := by rw [raw, opensRegex_eq hdrop, opensSlash_of_regex? hregex, hdiv]; rfl
    rw [hraw, readRegex, hsame, hscan]
    exact .inl ⟨_, _, rfl, rfl, rfl⟩
  | stuck =>
    unfold raw readRegex advance
    rw [hsame, hscan]
    split <;> exact .inr (.inr ⟨_, _, _, rfl, hm, rfl, rfl⟩)

theorem Steady.token_in_regex (h : Steady l) (hm : l.mode = .regex) :
    (∃ t l', l.token = (.ok (some t), l') ∧ t.kind = .regex ∧ l'.mode = .ordinary) ∨
      (∃ l', l.token = (.ok none, l') ∧ l'.mode = .regex ∧ l'.loaded ∧ l'.slashDivides = false) ∨
      ∃ rest line l', l.token = (.error (.badRegex rest line), l') ∧ l'.mode = .regex ∧ l'.loaded ∧
        l'.slashDivides = false := by
  obtain ⟨hloaded, hdiv⟩ := h.slash hm
  unfold Lexer.token
  rw [h.pushed, hloaded]
  simp only [if_true]
  rw [skipTrivia_succ]
  rcases raw_in_regex hm hdiv with ⟨t, l', hraw, hkind, hmode⟩ | ⟨l', hraw, hend, hmode, hload, hcur⟩ |
    ⟨rest, line, l', hraw, hmode, hload, hcur⟩
  · obtain ⟨cur, hout⟩ := handOut_eq l' t
    simp only [hraw, hkind, handOut?, hout]
    exact .inl ⟨_, _, rfl, rfl, hmode⟩
  · rw [hraw, hend]
    exact .inr (.inl ⟨l', rfl, hmode, hload.trans hloaded, by rw [slashDivides, hcur]; rfl⟩)
  · rw [hraw]
    exact .inr (.inr ⟨rest, line, l', rfl, hmode, hload.trans hloaded, by rwa [slashDivides, hcur]⟩)

/-- What a call for a token does to the mode. -/
theorem Steady.token (h : Steady l) : Steady l.token.2 ∧ (l.token.1 = .ok none → l.token.2.mode = l.mode) ∧
    (l.token.1 ≠ .ok none → (l.token.2.mode = .regex ↔ ∃ rest line, l.token.1 = .error (.badRegex rest line))) := by
  have hpushed : l.token.2.pushed = [] := token_pushed_nil h.pushed rfl
  have hordinary : l.token.2.mode = .ordinary → Steady l.token.2 := fun hmode =>
    ⟨hpushed, fun hregex => by cases hmode.symm.trans hregex⟩
  cases hm : l.mode with
  | regex =>
    rcases h.token_in_regex hm with ⟨t, l', htoken, -, hmode⟩ | ⟨l', htoken, hmode, hslash⟩ | ⟨rest, line, l', htoken, hmode, hslash⟩
    all_goals rw [htoken] at hpushed hordinary ⊢
    · exact ⟨hordinary hmode, nofun, fun _ => iff_of_false (by simp [hmode]) nofun⟩
    · exact ⟨⟨hpushed, fun _ => hslash⟩, fun _ => hmode, fun hne => absurd rfl hne⟩
    · exact ⟨⟨hpushed, fun _ => hslash⟩, nofun, fun _ => ⟨fun _ => ⟨rest, line, rfl⟩, fun _ => hmode⟩⟩
  | ordinary =>
    rcases htoken : l.token with ⟨e | r, l'⟩
    · rw [htoken] at hpushed hordinary
      unfold Lexer.token at htoken
      rw [h.pushed] at htoken
      simp only at htoken
      split at htoken
      · next hloaded =>
        obtain ⟨us, m, -, ⟨miss, ⟨rest, line, rfl⟩, hmode, hload, hcur⟩ | ⟨-, rfl, hmode⟩⟩ := skipTrivia_error ⟨hloaded, hm, h.pushed⟩ htoken
        · refine ⟨⟨hpushed, fun _ => ⟨hload, ?_⟩⟩, nofun, fun _ => ⟨fun _ => ⟨rest, line, rfl⟩, fun _ => hmode⟩⟩
          rw [slashDivides_eq, hcur]
          exact miss.2.1
        · exact ⟨hordinary hmode, nofun, fun _ => iff_of_false (by simp [hmode]) nofun⟩
      · cases htoken
        exact ⟨h, nofun, fun _ => iff_of_false (by simp [hm]) nofun⟩
    · have hmode := (token_settles hm htoken).mode
      rw [htoken] at hordinary
      exact ⟨hordinary hmode, fun _ => hmode, fun _ => iff_of_false (by simp [hmode]) nofun⟩

theorem Steady.calls (h : Steady l) (cs : List Call) : Steady (calls l cs).2 ∧ ((calls l cs).2.mode = .regex ↔
    match ((calls l cs).1.filter (· ≠ .ok none)).getLast? with
    | some r => ∃ rest line, r = .error (.badRegex rest line)
    | none => l.mode = .regex) := by
  induction cs generalizing l with
  | nil => exact ⟨h, Iff.rfl⟩
  | cons c cs ih =>
    cases c with
    | input text => exact ih (l := l.input text) ⟨h.pushed, fun hm => ⟨rfl, (h.slash hm).2⟩⟩
    | token =>
      obtain ⟨steady, hnone, hsome⟩ := h.token
      obtain ⟨steady', hmode⟩ := ih steady
      refine ⟨steady', hmode.trans ?_⟩
      simp only [calls, List.filter_cons]
      by_cases hr : l.token.1 = .ok none
      · simp [hr, hnone hr]
      · simp only [ne_eq, hr, not_false_eq_true, decide_true, if_true, List.getLast?_cons]
        cases ((calls l.token.2 cs).1.filter (· ≠ .ok none)).getLast? with
        | none => exact hsome hr
        | some r => exact Iff.rfl

/-- After any calls on a new lexer, only a regular expression is looked for exactly if the last call for a token that did not
come to the end of a text has missed one. In that mode the next text begins with no other token. -/
theorem mode_after_calls (cs : List Call) : ((calls {} cs).2.mode = .regex ↔
      ∃ rest line, ((calls {} cs).1.filter (· ≠ .ok none)).getLast? = some (.error (.badRegex rest line))) ∧
    ((calls {} cs).2.mode = .regex → ∀ text t, ((calls {} cs).2.input text).token.1 = .ok (some t) → t.kind = .regex) := by
  obtain ⟨steady, hmode⟩ := Steady.calls (l := {}) ⟨rfl, nofun⟩ cs
  refine ⟨hmode.trans ?_, fun hregex text t htoken => ?_⟩
  · cases ((calls {} cs).1.filter (· ≠ .ok none)).getLast? with
    | none => exact ⟨nofun, nofun⟩
    | some r => simp
  · have hinput : Steady ((calls {} cs).2.input text) := ⟨steady.pushed, fun hm => ⟨rfl, (steady.slash hm).2⟩⟩
    rcases hinput.token_in_regex hregex with ⟨u, l', hread, hkind, -⟩ | ⟨l', hread, -⟩ | ⟨_, _, l', hread, -⟩
    · rw [hread] at htoken
      cases htoken
      exact hkind
    · rw [hread] at htoken
      cases htoken
    · rw [hread] at htoken
      cases htoken

/-- A name is not read behind a text that ends in the middle of a regular expression. -/
theorem name_missed_after_regex :
    (calls {} [.input "/a", .token, .input "b", .token]).1 = [.error (.badRegex "/a" 1), .error (.badRegex "b" 1)] ∧
      (calls {} [.input "/a", .token, .input "b"]).2.mode = .regex :=
  ⟨by decide, (mode_after_calls [.input "/a", .token, .input "b"]).1.2 ⟨"/a", 1, by decide⟩⟩

end JsMinify.Lexer
