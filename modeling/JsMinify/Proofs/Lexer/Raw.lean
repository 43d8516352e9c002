import JsMinify.Proofs.Lexer.Lexemes

/-!
# Raw tokens

`Lexer.raw` reads one raw token, line breaks and comments included: a regular expression where a slash
opens one, and any other lexeme elsewhere. `skipTrivia_succ` says that the tokens of a program are found
by reading raw tokens until one is neither a line break nor a comment.
-/

namespace JsMinify.Lexer

open List Lexeme Lexer

variable {l l' : Lexer} {r s g : List Char} {t : Token} {d c : Char} {k : TokenKind} {n : Nat} {x : LexResult (Option Token)}

/-! ## Scanning -/

theorem form_of_lexer_rule? (h : l.rule? s = some (k, n)) : Form s k n := by
  cases hm : l.mode with
  | ordinary =>
    simp only [rule?, hm] at h
    exact form_of_rule? h
  | regex =>
    simp only [rule?, hm] at h
    exact form_of_map .regex h

theorem scanFrom_dropWhile (l : Lexer) (s : List Char) (pos : Nat) :
    l.scanFrom s pos = l.scanFrom (s.dropWhile isBlank) (pos + run isBlank s) := by
  induction s generalizing pos with
  | nil => rfl
  | cons c s ih =>
    by_cases hc : isBlank c
    · rw [scanFrom, if_pos hc, ih, dropWhile_cons_of_pos hc, run, run, takeWhile_cons_of_pos hc, length_cons]
      congr 1
      omega
    · rw [dropWhile_cons_of_neg hc, run, takeWhile_cons_of_neg hc]
      rfl

/-- The text of a token is its lexeme; the lines of a string are joined. -/
def joined (k : TokenKind) (w : List Char) : List Char := if k = .string then joinLines w else w

theorem take_eq (l : Lexer) (s : List Char) (pos : Nat) (k : TokenKind) (n : Nat) : ∃ line, l.line ≤ line ∧
    l.take s pos k n = (⟨k, String.ofList (joined k (s.take n)), l.line, pos⟩,
      { l with rest := s.drop n, pos := pos + n, line := line }) := by
  unfold take joined
  by_cases hk : k = .string
  · exact ⟨_, Nat.le_add_right _ _, by simp only [hk, if_true]; rfl⟩
  · exact ⟨l.line, Nat.le_refl _, by simp only [hk, if_false]⟩

theorem scanFrom_lexeme (pos : Nat) (hc : isBlank c = false) (hr : l.rule? (c :: s) = some (k, n)) : l.scanFrom (c :: s) pos =
      (.ok (some (l.take (c :: s) pos k n).1), (l.take (c :: s) pos k n).2) := by
  rw [scanFrom, if_neg (by simp [hc]), hr]

/-- The characters `g` before the text `s` are passed over on the way to it: blanks, and characters that begin no
lexeme there. -/
def Idle : List Char → List Char → Prop
  | [], _ => True
  | c :: g, s => (isBlank c = true ∨ Lexeme.rule? (c :: (g ++ s)) = none) ∧ Idle g s

/-- The characters `g` before the text `s` are passed over in the current mode. Where only a regular expression can stand
they are blanks. -/
def Passes (l : Lexer) (g s : List Char) : Prop :=
  match l.mode with
  | .ordinary => Idle g s
  | .regex => ∀ c ∈ g, isBlank c = true

/-- What scanning comes to behind the characters that it passes over: the end of the text, a lexeme, or a place where
a regular expression must stand and does not. -/
inductive Scanned (l : Lexer) (s : List Char) (pos : Nat) : LexResult (Option Token) → Prop where
  | ended {p : Nat} {illegal : List IllegalChar} (passes : l.Passes s []) :
      Scanned l s pos (.ok none, { l with rest := [], pos := p, illegal := illegal })
  | lexeme {g v : List Char} {k : TokenKind} {n p line : Nat} {illegal : List IllegalChar} (text : s = g ++ v)
      (passes : l.Passes g v) (head : ∃ c r, v = c :: r ∧ isBlank c = false)
      (rule : l.rule? v = some (k, n)) (place : p = pos + g.length) (later : l.line ≤ line) :
      Scanned l s pos (.ok (some ⟨k, String.ofList (joined k (v.take n)), l.line, p⟩),
        { l with rest := v.drop n, pos := p + n, line := line, illegal := illegal })
  | stuck {p : Nat} {illegal : List IllegalChar} (mode : l.mode = .regex) (none : regex? (s.dropWhile isBlank) = none) :
      Scanned l s pos (.error (.badRegex (String.ofList (s.dropWhile isBlank)) l.line),
        { l with rest := s.dropWhile isBlank, pos := p, illegal := illegal })

theorem Passes.idle (h : l.Passes g s) (hm : l.mode = .ordinary) : Idle g s := by
  rwa [Passes, hm] at h

theorem Passes.blanks (h : l.Passes g s) (hm : l.mode = .regex) : ∀ c ∈ g, isBlank c := by
  rwa [Passes, hm] at h

theorem Passes.cons (h : l.Passes g s)
    (hc : isBlank c ∨ l.mode = .ordinary ∧ Lexeme.rule? (c :: (g ++ s)) = none) : l.Passes (c :: g) s := by
  unfold Passes at h ⊢
  split at h
  · exact ⟨hc.imp_right And.right, h⟩
  · next hm =>
    have hblank : isBlank c := hc.resolve_right fun hr => by cases hr.1.symm.trans hm
    exact forall_mem_cons.2 ⟨hblank, h⟩

theorem Passes.nil : l.Passes [] s := by
  unfold Passes
  split
  · trivial
  · nofun

/-- A character that is passed over is one more of them. -/
theorem Scanned.cons {pos : Nat} {illegal : List IllegalChar} (h : Scanned { l with illegal := illegal } s (pos + 1) x)
    (hc : isBlank c ∨ l.mode = .ordinary ∧ Lexeme.rule? (c :: s) = none) : Scanned l (c :: s) pos x := by
  cases h with
  | ended passes => exact .ended (Passes.cons (l := l) passes (by rwa [append_nil]))
  | lexeme text passes head rule place later =>
    subst text
    exact .lexeme (cons_append ..).symm (Passes.cons (l := l) passes hc) head rule (by rw [place, length_cons]; omega) later
  | stuck mode none =>
    have hblank : isBlank c := hc.resolve_right fun h => by cases h.1.symm.trans mode
    rw [← dropWhile_cons_of_pos hblank] at none ⊢
    exact .stuck mode none

theorem scanned (l : Lexer) (s : List Char) (pos : Nat) : Scanned l s pos (l.scanFrom s pos) := by
  fun_induction scanFrom l s pos with
  | case1 => exact .ended .nil
  | case2 l c s pos hc ih => exact ih.cons (.inl hc)
  | case3 l c s pos hc k n hr t l' ht =>
    obtain ⟨line, later, htake⟩ := take_eq l (c :: s) pos k n
    cases ht.symm.trans htake
    exact .lexeme (g := []) rfl .nil ⟨c, s, rfl, by simpa using hc⟩ hr rfl later
  | case4 l c s pos hc hr hm ih =>
    simp only [rule?, hm] at hr
    exact ih.cons (.inr ⟨hm, hr⟩)
  | case5 l c s pos hc hr hm =>
    simp only [rule?, hm, Option.map_eq_none_iff] at hr
    have hstays : (c :: s).dropWhile isBlank = c :: s := dropWhile_cons_of_neg hc
    simpa only [hstays] using Scanned.stuck (s := c :: s) hm (by rwa [hstays])

theorem scan_scanned (h : l.scan = x) : Scanned l l.rest l.pos x :=
  h ▸ scanned l l.rest l.pos

/-- At a slash a lexeme is read, or there is no regular expression where one must stand. -/
theorem scan_slash (hl : l.rest.dropWhile isBlank = '/' :: d :: r) (hd : d ≠ '/') (hs : d ≠ '*') :
    (∃ t l', l.scan = (.ok (some t), l') ∧ t.kind.isTrivia = false) ∨ ∃ e l', l.scan = (.error e, l') := by
  rw [scan, scanFrom_dropWhile, hl]
  cases hr : l.rule? ('/' :: d :: r) with
  | some e =>
    obtain ⟨k, n⟩ := e
    obtain ⟨line, -, htake⟩ := take_eq l ('/' :: d :: r) (l.pos + run isBlank l.rest) k n
    rw [scanFrom_lexeme _ (by decide) hr, htake]
    refine .inl ⟨_, _, rfl, Bool.eq_false_iff.2 fun ht => ?_⟩
    rcases (form_of_lexer_rule? hr).trivia ht with ⟨-, hn⟩ | ⟨d', r', he, hd'⟩
    · cases hn
    · obtain ⟨rfl, -⟩ := cons.inj (cons.inj he).2
      exact hd'.elim hd hs
  | none =>
    cases hm : l.mode with
    | ordinary =>
      have hsome := rule?_slash (d :: r)
      simp only [rule?, hm] at hr
      rw [hr] at hsome
      cases hsome
    | regex =>
      rw [scanFrom, if_neg (by decide), hr, hm]
      exact .inr ⟨_, _, rfl⟩

/-- Where at most one character is left, there is no comment. -/
theorem scan_short (hl : (l.rest.dropWhile isBlank).length < 2) (h : l.scan = (.ok (some t), l'))
    (ht : t.kind.isTrivia) : t.kind = .lineEnd := by
  rw [scan, scanFrom_dropWhile] at h
  have hread := scanned l (l.rest.dropWhile isBlank) (l.pos + run isBlank l.rest)
  rw [h] at hread
  cases hread with
  | lexeme text _ _ rule =>
    rcases (form_of_lexer_rule? rule).trivia ht with ⟨hk, -⟩ | ⟨d, r, rfl, -⟩
    · exact hk
    · rw [text, length_append, length_cons, length_cons] at hl
      omega

/-! ## Reading -/

/-- What is read and remembered is what was scanned, or a semicolon in place of a line break. -/
theorem advance_cases (l : Lexer) : (∃ e l', { l with prev := l.cur }.scan = (.error e, l') ∧ l.advance = (.error e, l')) ∨
    (∃ l', { l with prev := l.cur }.scan = (.ok none, l') ∧ l.advance = (.ok none, { l' with cur := none })) ∨
    (∃ t l', { l with prev := l.cur }.scan = (.ok (some t), l') ∧ (l.advance = (.ok (some t), { l' with cur := some t }) ∨
        t.kind = .lineEnd ∧ l.advance = (.ok (some ⟨.semi, ";", t.line, t.pos⟩),
          { l' with cur := some t, line := l'.line + t.breaks }))) := by
  unfold advance
  split
  · next e l' h => exact .inl ⟨e, l', h, rfl⟩
  · next l' h => exact .inr (.inl ⟨l', h, rfl⟩)
  · next t l' h =>
    refine .inr (.inr ⟨t, l', h, ?_⟩)
    simp only
    split
    · next hk =>
      rw [Bool.and_eq_true, decide_eq_true_eq] at hk
      exact .inr ⟨hk.1, rfl⟩
    · exact .inl rfl

/-- Inside a slash only a regular expression is read. -/
theorem readRegex_slash (hl : l.rest.dropWhile isBlank = '/' :: d :: r) (hd : d ≠ '/') (hs : d ≠ '*') :
    (∃ t l', l.readRegex = (.ok (some t), l') ∧ t.kind.isTrivia = false) ∨ ∃ e l', l.readRegex = (.error e, l') := by
  unfold readRegex
  rcases scan_slash (l := { l with prev := l.cur, mode := .regex }) hl hd hs with
    ⟨t, l', he, ht⟩ | ⟨e, l', he⟩
  · rw [he]
    exact .inl ⟨t, _, rfl, ht⟩
  · rw [he]
    exact .inr ⟨e, _, rfl⟩

theorem advance_slash (hl : l.rest.dropWhile isBlank = '/' :: d :: r) (hd : d ≠ '/') (hs : d ≠ '*') :
    (∃ t l', l.advance = (.ok (some t), l') ∧ t.kind.isTrivia = false) ∨ ∃ e l', l.advance = (.error e, l') := by
  have hscan := scan_slash (l := { l with prev := l.cur }) hl hd hs
  rcases advance_cases l with ⟨e, l', -, ha⟩ | ⟨l', he, -⟩ | ⟨t, l', he, ha | ⟨-, ha⟩⟩
  · exact .inr ⟨e, l', ha⟩
  · rw [he] at hscan
    rcases hscan with ⟨_, _, h, -⟩ | ⟨_, _, h⟩ <;> cases (Prod.mk.inj h).1
  · refine .inl ⟨t, _, ha, ?_⟩
    rw [he] at hscan
    rcases hscan with ⟨u, _, h, hu⟩ | ⟨_, _, h⟩
    · cases Except.ok.inj (Prod.mk.inj h).1
      exact hu
    · cases (Prod.mk.inj h).1
  · exact .inl ⟨_, _, ha, rfl⟩

theorem advance_short (hl : (l.rest.dropWhile isBlank).length < 2) (h : l.advance = (.ok (some t), l')) :
    t.kind.isTrivia ↔ t.kind = .lineEnd := by
  refine ⟨fun ht => ?_, fun hk => by rw [hk]; rfl⟩
  rcases advance_cases l with ⟨e, l', -, ha⟩ | ⟨l', -, ha⟩ | ⟨u, l', he, ha | ⟨-, ha⟩⟩
  · rw [ha] at h
    cases (Prod.mk.inj h).1
  · rw [ha] at h
    cases (Prod.mk.inj h).1
  · rw [ha] at h
    cases Except.ok.inj (Prod.mk.inj h).1
    exact scan_short (l := { l with prev := l.cur }) hl he ht
  · rw [ha] at h
    cases Except.ok.inj (Prod.mk.inj h).1
    cases ht

/-- The text goes on with a slash that opens a regular expression. -/
def opensRegex (l : Lexer) : Bool :=
  match l.rest.dropWhile isBlank with
  | '/' :: d :: _ => d != '/' && d != '*' && !l.slashDivides
  | _ => false

/-- Reads one raw token, a regular expression where one can stand. -/
def raw (l : Lexer) : LexResult (Option Token) := if l.opensRegex then l.readRegex else l.advance

/-- What is handed out where no raw token is left. -/
def endOf (l : Lexer) : Except LexError (Option Token) :=
  match l.rest.dropWhile isBlank with
  | _ :: _ :: _ => .error .onlyIllegal
  | _ => .ok none

/-- Reading on until a token of the program turns up, one raw token at a time. -/
theorem skipTrivia_succ (fuel : Nat) (l : Lexer) : skipTrivia (fuel + 1) l = match l.raw with
      | (.error e, l') => (.error e, l')
      | (.ok none, l') => (l.endOf, l')
      | (.ok (some t), l') =>
        if t.kind.isTrivia then skipTrivia fuel (l'.countBreaks t) else l'.handOut? (some t) := by
  rw [skipTrivia]
  split
  · next c d r hl =>
    have hend : l.endOf = .error .onlyIllegal := by rw [endOf, hl]
    rw [hend]
    by_cases hc : c ≠ '/' || d = '/' || d = '*'
    · have hraw : l.raw = l.advance := by
        refine if_neg fun hopen => ?_
        rw [opensRegex, hl] at hopen
        split at hopen
        · next heq =>
          obtain ⟨-, he⟩ := cons.inj heq
          obtain ⟨rfl, -⟩ := cons.inj he
          simp_all
        · cases hopen
      rewrite [if_pos hc, hraw]
      rfl
    · simp only [Bool.or_eq_true, decide_eq_true_eq, not_or, ne_eq, Decidable.not_not] at hc
      obtain ⟨⟨rfl, hd⟩, hs⟩ := hc
      rw [if_neg (by simp [hd, hs])]
      cases hdiv : l.slashDivides with
      | true =>
        have hraw : l.raw = l.advance := by simp [raw, opensRegex, hl, hdiv]
        rw [if_pos rfl, hraw]
        rcases advance_slash hl hd hs with ⟨t, l', ha, ht⟩ | ⟨e, l', ha⟩
        · simp [ha, ht]
        · simp [ha]
      | false =>
        have hraw : l.raw = l.readRegex := by simp [raw, opensRegex, hl, hdiv, hd, hs]
        rw [if_neg (by decide), hraw]
        rcases readRegex_slash hl hd hs with ⟨t, l', ha, ht⟩ | ⟨e, l', ha⟩
        · simp [ha, ht]
        · simp [ha]
  · next hl =>
    have hshort : (l.rest.dropWhile isBlank).length < 2 := by
      rcases hd : l.rest.dropWhile isBlank with _ | ⟨c, _ | ⟨d, r⟩⟩
      · decide
      · exact Nat.lt_succ_self 1
      · exact absurd hd (hl c d r)
    have hraw : l.raw = l.advance := by
      refine if_neg fun hopen => ?_
      rw [opensRegex] at hopen
      split at hopen
      · next heq => exact hl _ _ _ heq
      · cases hopen
    have hend : l.endOf = .ok none := by
      rw [endOf]
      split
      · next heq => exact absurd heq (hl _ _ _)
      · rfl
    rw [hraw, hend]
    rcases ha : l.advance with ⟨e | _ | t, l'⟩
    · rfl
    · rfl
    · simp only [advance_short hshort ha]

/-! ## What was read -/

/-- What scanning leaves as it was. -/
structure Kept (l l' : Lexer) : Prop where
  pushed : l'.pushed = l.pushed
  prev : l'.prev = l.prev
  loaded : l'.loaded = l.loaded
  mode : l'.mode = l.mode
  line : l.line ≤ l'.line

theorem scan_kept {x : Except LexError (Option Token)} (h : l.scan = (x, l')) : Kept l l' := by
  cases scan_scanned h with
  | lexeme _ _ _ _ _ later => exact ⟨rfl, rfl, rfl, rfl, later⟩
  | _ => exact ⟨rfl, rfl, rfl, rfl, Nat.le_refl _⟩

/-- A semicolon for a line break comes after a word that a line break ends. -/
theorem restricted_of_advance {l₁ : Lexer} (hscan : { l with prev := l.cur }.scan = (.ok (some t), l₁))
    (hk : t.kind = .lineEnd) (h : l.advance = (.ok (some ⟨.semi, ";", t.line, t.pos⟩), l')) :
    l.cur.any (·.kind.isRestricted) := by
  have hprev : l₁.prev = l.cur := (scan_kept hscan).prev
  unfold advance at h
  rw [hscan] at h
  simp only [hk, hprev, decide_true, Bool.true_and] at h
  split at h
  · next hany => exact hany
  · have hkind := congrArg Token.kind (Option.some.inj (Except.ok.inj (Prod.mk.inj h).1))
    rw [hk] at hkind
    cases hkind

/-- What was read was scanned, a regular expression in a mode of its own, or it is a semicolon in place of a line
break. -/
theorem raw_ok {r : Option Token} (h : l.raw = (.ok r, l')) :
    ∃ mode mode' l₁ r₁, { l with prev := l.cur, mode := mode }.scan = (.ok r₁, l₁) ∧
      (l.opensRegex = false ∧ mode = l.mode ∧ mode' = l.mode ∨ l.opensRegex ∧ mode = .regex ∧ mode' = .ordinary) ∧
      (r = r₁ ∧ l' = { l₁ with cur := r, mode := mode' } ∨
        l.cur.any (·.kind.isRestricted) ∧ ∃ t, r₁ = some t ∧ t.kind = .lineEnd ∧
          r = some ⟨.semi, ";", t.line, t.pos⟩ ∧ l' = { l₁ with cur := some t, line := l₁.line + t.breaks, mode := mode' }) := by
  unfold raw at h
  split at h
  · next hopen =>
    unfold readRegex at h
    split at h
    · cases (Prod.mk.inj h).1
    · next r₁ l₁ hscan =>
      obtain ⟨hr, rfl⟩ := Prod.mk.inj h
      cases hr
      exact ⟨.regex, .ordinary, l₁, _, hscan, .inr ⟨hopen, rfl, rfl⟩, .inl ⟨rfl, rfl⟩⟩
  · next hopen =>
    have hmodes := And.intro (eq_false_of_ne_true hopen) (And.intro (Eq.refl l.mode) (Eq.refl l.mode))
    rcases advance_cases l with ⟨e, l₁, -, ha⟩ | ⟨l₁, hscan, ha⟩ | ⟨t, l₁, hscan, ha | ⟨hk, ha⟩⟩
    all_goals obtain ⟨hr, rfl⟩ := Prod.mk.inj (ha.symm.trans h)
    · cases hr
    all_goals
      cases hr
      refine ⟨l.mode, l.mode, l₁, _, hscan, .inl hmodes, ?_⟩
      rw [← show l₁.mode = l.mode from (scan_kept hscan).mode]
    · exact .inl ⟨rfl, rfl⟩
    · exact .inl ⟨rfl, rfl⟩
    · exact .inr ⟨restricted_of_advance hscan hk ha, t, rfl, hk, rfl, rfl⟩

theorem handOut_eq (l : Lexer) (t : Token) :
    ∃ cur, l.handOut t = ({ t with line := l.line + t.breaks }, { l with line := l.line + t.breaks, cur := cur }) := by
  unfold handOut
  by_cases h : l.cur = some t
  · exact ⟨_, by simp only [h, if_true]; rfl⟩
  · exact ⟨l.cur, by simp only [h, if_false]; rfl⟩

theorem endOf_ok {r : Option Token} (h : l.endOf = .ok r) : r = none := by
  unfold endOf at h
  split at h
  · cases h
  · exact (Except.ok.inj h).symm

/-- Where the text ends no raw token is left, and elsewhere the next one is passed over or handed out. -/
theorem skipTrivia_ok {fuel : Nat} {r : Option Token} (h : skipTrivia (fuel + 1) l = (.ok r, l')) :
    r = none ∧ l.raw = (.ok none, l') ∨ ∃ t m, l.raw = (.ok (some t), m) ∧
        (t.kind.isTrivia ∧ skipTrivia fuel (m.countBreaks t) = (.ok r, l') ∨
          t.kind.isTrivia = false ∧ r = some (m.handOut t).1 ∧ l' = (m.handOut t).2) := by
  rw [skipTrivia_succ] at h
  generalize l.raw = read at h ⊢
  rcases read with ⟨e | _ | t, m⟩
  · cases (Prod.mk.inj h).1
  · obtain ⟨hr, rfl⟩ := Prod.mk.inj h
    exact .inl ⟨endOf_ok hr, rfl⟩
  · refine .inr ⟨t, m, rfl, ?_⟩
    cases ht : t.kind.isTrivia with
    | true =>
      simp only [ht, if_true] at h
      exact .inl ⟨rfl, h⟩
    | false =>
      simp only [ht, Bool.false_eq_true, if_false] at h
      obtain ⟨hr, hl⟩ := Prod.mk.inj h
      exact .inr ⟨rfl, (Except.ok.inj hr).symm, hl.symm⟩

end JsMinify.Lexer
