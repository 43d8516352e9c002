import JsMinify.Proofs.Lexer.Exchange
import JsMinify.Proofs.Lexer.Slash

/-!
# Blanks between tokens

Blanks that stand between two tokens of a text are exchanged for others. The lexer is followed through both texts at once:
before the blanks it reads the same lexemes, and behind them the same text is left (`Exchange.Stage`). A lexeme that
reaches across the blanks is a comment, since the blanks stand between tokens. So the tokens of both texts agree, but for a
word `get` or `set` that stands right before the blanks (`blanks_irrelevant_iff`).
-/

namespace JsMinify

open List Lexeme Lexer Option

variable {t t' : Token} {fuel fuel' n pos : Nat} {l' : Lexer} {s s' : List Char} {k : TokenKind} {ts : List Token}

/-- Blanks at a place of a text, other blanks that they are exchanged for, and the text behind them. -/
structure Exchange where
  place : Nat
  old : List Char
  new : List Char
  rest : List Char
  blanks : Blanks old
  blanks' : Blanks new

namespace Exchange

variable (x : Exchange)

/-- What is left of both texts: the lexer has not come to the blanks, or it is behind them. -/
inductive Stage (pos : Nat) : List Char → List Char → Prop where
  | before {r : List Char} (reach : pos + r.length = x.place) :
    Stage pos (r ++ (x.old ++ x.rest)) (r ++ (x.new ++ x.rest))
  | behind {s : List Char} (past : x.place + x.old.length ≤ pos) : Stage pos s s

/-- A token is a word right before the blanks that tells them apart: it looks for a name behind a single blank. -/
def Turns (t : Token) (pos : Nat) : Prop :=
  (t.text = "get" ∨ t.text = "set") ∧ pos = x.place ∧ opensName (x.old ++ x.rest) ≠ opensName (x.new ++ x.rest)

/-- The kinds that `get` and `set` are read as. -/
def wordKinds : List TokenKind := [.identifier, .getProp, .setProp]

theorem wordKinds_plain :
    ∀ k ∈ wordKinds, k.isRestricted = false ∧ k.isTrivia = false ∧ k ≠ .lineEnd ∧ k ≠ .string := by decide

/-- Tokens of both texts that were read in the same step; `pos` is where the lexer stands then in the first text. -/
structure Matches (t t' : Token) (pos : Nat) : Prop where
  text : t'.text = t.text ∨ t.pos < x.place ∧ x.place + x.old.length ≤ pos
  kind : t'.kind = t.kind ↔ ¬x.Turns t pos
  words : t'.kind = t.kind ∨ t.kind ∈ wordKinds ∧ t'.kind ∈ wordKinds

variable {x} {l m l₁ : Lexer} {r : List Char} {pos' : Nat} {k' : TokenKind} {u : Token}

theorem place_lt : x.place < x.place + x.old.length := Nat.lt_add_of_pos_right x.blanks.length_pos

/-- Behind the blanks the texts are the same. -/
theorem Matches.of_past (past : x.place + x.old.length ≤ pos) (hkind : t'.kind = t.kind)
    (htext : t'.text = t.text ∨ t.pos < x.place) : x.Matches t t' pos := by
  refine ⟨htext.imp_right fun h => ⟨h, past⟩, iff_of_true hkind fun turns => ?_, .inl hkind⟩
  have hplace := x.place_lt
  rw [turns.2.1] at past
  omega

/-! ## Scanning -/

theorem scanFrom_blanks {w : List Char} (hw : ∀ c ∈ w, isBlank c) (l : Lexer) (s : List Char) (pos : Nat) :
    l.scanFrom (w ++ s) pos = l.scanFrom s (pos + w.length) := by
  induction w generalizing pos with
  | nil => rfl
  | cons c w ih =>
    rw [cons_append, scanFrom, if_pos (hw c (by simp)), ih (fun d hd => hw d (by simp [hd])), length_cons]
    congr 1
    omega

/-- A token that is spelt `get` or `set` is that very lexeme. -/
theorem take_of_joined (hf : Form s k n) {word : String} (hword : word = "get" ∨ word = "set")
    (h : String.ofList (joined k (s.take n)) = word) : s.take n = word.toList := by
  have hjoined : joined k (s.take n) = word.toList := by rw [← h, String.toList_ofList]
  unfold joined at hjoined
  split at hjoined
  · next hk =>
    -- A string begins with a quote.
    exfalso
    have hquote : ∃ c r, s = c :: r ∧ (c = '"' ∨ c = '\'') := by
      have hs := hf.string?_eq hk
      cases s with
      | nil => cases hs
      | cons c r =>
        refine ⟨c, r, rfl, ?_⟩
        by_contra hc
        rw [string?_of_head (not_or.1 hc)] at hs
        cases hs
    obtain ⟨c, r, rfl, hc⟩ := hquote
    obtain ⟨n, rfl⟩ := Nat.exists_eq_add_of_lt hf.pos
    rw [Nat.zero_add, take_succ_cons, joinLines_cons (by rintro rfl; simp at hc)] at hjoined
    rcases hword with rfl | rfl <;> rcases hc with rfl | rfl <;> cases (List.cons.inj hjoined).1
  · exact hjoined

/-- The lexemes of both texts at a place before the blanks. -/
theorem rule?_before (hm : l.mode = m.mode) (hr : r ≠ []) :
    (Exchanged r x.old x.new (l.rule? (r ++ (x.old ++ x.rest))) (m.rule? (r ++ (x.new ++ x.rest))) ∧
      ∀ k n, l.rule? (r ++ (x.old ++ x.rest)) = some (k, n) → r = "get".toList ∨ r = "set".toList →
        opensName (x.old ++ x.rest) = opensName (x.new ++ x.rest)) ∨
    (r = "get".toList ∨ r = "set".toList) ∧ opensName (x.old ++ x.rest) ≠ opensName (x.new ++ x.rest) ∧
      ∃ k k', l.rule? (r ++ (x.old ++ x.rest)) = some (k, r.length) ∧
        m.rule? (r ++ (x.new ++ x.rest)) = some (k', r.length) ∧ k ∈ wordKinds ∧ k' ∈ wordKinds ∧ k' ≠ k := by
  unfold Lexer.rule?
  rw [← hm]
  cases l.mode with
  | regex =>
    refine .inl ⟨.of_moved (regex?_moved x.blanks x.blanks' r x.rest hr) .regex, fun k n hn hword => ?_⟩
    rcases hword with rfl | rfl <;> cases hn
  | ordinary =>
    by_cases hword : r = "get".toList ∨ r = "set".toList
    · by_cases hopens : opensName (x.old ++ x.rest) = opensName (x.new ++ x.rest)
      · exact .inl ⟨rule?_exchanged x.blanks x.blanks' r x.rest hr fun _ => hopens, fun _ _ _ _ => hopens⟩
      · refine .inr ⟨hword, hopens, ?_⟩
        obtain ⟨word, hspelt, rfl⟩ : ∃ word : String, (word = "get" ∨ word = "set") ∧ r = word.toList := by
          rcases hword with h | h
          · exact ⟨_, .inl rfl, h⟩
          · exact ⟨_, .inr rfl, h⟩
        obtain ⟨k, hk, hrule⟩ := rule?_word_before x.rest hspelt
        have hkinds : k ∈ wordKinds ∧ k ≠ .identifier := by
          rcases (by simpa using hk : k = .getProp ∨ k = .setProp) with rfl | rfl <;> decide
        refine ⟨_, _, hrule x.blanks, hrule x.blanks', ?_, ?_, ?_⟩
        · split
          · exact hkinds.1
          · decide
        · split
          · exact hkinds.1
          · decide
        · have hnew : opensName (x.new ++ x.rest) = !opensName (x.old ++ x.rest) := Bool.eq_not.2 (Ne.symm hopens)
          rw [hnew]
          cases opensName (x.old ++ x.rest) with
          | true => exact hkinds.2.symm
          | false => exact hkinds.2
    · exact .inl ⟨rule?_exchanged x.blanks x.blanks' r x.rest hr fun h => absurd h hword, fun _ _ _ h => absurd h hword⟩

variable (x) in
/-- What is read in the first text is matched in the second one, and both texts end together. -/
inductive Follows (R : Lexer → Lexer → Prop) : LexResult (Option Token) → LexResult (Option Token) → Prop where
  | failed {e : LexError} {l : Lexer} {r : LexResult (Option Token)} : Follows R (.error e, l) r
  | ended {l m : Lexer} : Follows R (.ok none, l) (.ok none, m)
  | read {t t' : Token} {l m : Lexer} (matched : x.Matches t t' l.pos) (next : R l m) :
    Follows R (.ok (some t), l) (.ok (some t'), m)

variable (x) in
/-- Scanning follows the text that is left. -/
abbrev Scans : LexResult (Option Token) → LexResult (Option Token) → Prop :=
  x.Follows fun l m => x.Stage l.pos l.rest m.rest

theorem scans_lexeme {n' : Nat} (hr : l.rule? s = some (k, n))
    (hr' : m.rule? s' = some (k', n')) (matched : ∀ line line', x.Matches ⟨k, String.ofList (joined k (s.take n)), line, pos⟩
      ⟨k', String.ofList (joined k' (s'.take n')), line', pos'⟩ (pos + n))
    (stage : x.Stage (pos + n) (s.drop n) (s'.drop n')) : x.Scans (l.scanFrom s pos) (m.scanFrom s' pos') := by
  obtain ⟨c, s, rfl, hc⟩ := (form_of_lexer_rule? hr).head
  obtain ⟨c', s', rfl, hc'⟩ := (form_of_lexer_rule? hr').head
  obtain ⟨_, -, htake⟩ := take_eq l (c :: s) pos k n
  obtain ⟨_, -, htake'⟩ := take_eq m (c' :: s') pos' k' n'
  rw [scanFrom_lexeme pos hc hr, scanFrom_lexeme pos' hc' hr', htake, htake']
  exact .read (matched _ _) stage

/-- A character that begins no lexeme is reported, unless a regular expression must stand there. -/
theorem scans_none {c : Char} (hm : l.mode = m.mode) (hc : isBlank c = false)
    (hr : l.rule? (c :: s) = none) (hr' : m.rule? (c :: s') = none)
    (later : ∀ l m : Lexer, l.mode = m.mode → x.Scans (l.scanFrom s (pos + 1)) (m.scanFrom s' (pos' + 1))) :
    x.Scans (l.scanFrom (c :: s) pos) (m.scanFrom (c :: s') pos') := by
  rw [scanFrom, scanFrom, if_neg (by simp [hc]), if_neg (by simp [hc]), hr, hr']
  simp only [← hm]
  split
  · exact later _ _ rfl
  · exact .failed

/-- What is scanned depends on the text alone. -/
theorem scans_behind (hm : l.mode = m.mode) (past : x.place + x.old.length ≤ pos) (pos' : Nat) :
    x.Scans (l.scanFrom s pos) (m.scanFrom s pos') := by
  induction s generalizing l m pos pos' with
  | nil => exact .ended
  | cons c s ih =>
    have hrule : m.rule? (c :: s) = l.rule? (c :: s) := by rw [Lexer.rule?, Lexer.rule?, hm]
    cases hc : isBlank c with
    | true =>
      rw [scanFrom, scanFrom, if_pos hc, if_pos hc]
      exact ih hm (by omega) (pos' + 1)
    | false =>
      cases hr : l.rule? (c :: s) with
      | some r =>
        refine scans_lexeme hr (hrule.trans hr) (fun _ _ => .of_past ?_ rfl (.inl rfl)) (.behind ?_) <;> omega
      | none => exact scans_none hm hc hr (hrule.trans hr) fun l m hm => ih hm (by omega) (pos' + 1)

/-- A lexeme that begins before the blanks ends before them in both texts, or behind them in both texts. -/
theorem scans_exchanged (pos' : Nat) (hne : r ≠ []) (reach : pos + r.length = x.place)
    (exchanged : Exchanged r x.old x.new (l.rule? (r ++ (x.old ++ x.rest))) (m.rule? (r ++ (x.new ++ x.rest))))
    (hr : l.rule? (r ++ (x.old ++ x.rest)) = some (k, n))
    (hword : r = "get".toList ∨ r = "set".toList → opensName (x.old ++ x.rest) = opensName (x.new ++ x.rest)) :
    x.Scans (l.scanFrom (r ++ (x.old ++ x.rest)) pos) (m.scanFrom (r ++ (x.new ++ x.rest)) pos') := by
  obtain ⟨hkind, hmoved⟩ := exchanged
  rw [hr] at hkind hmoved
  obtain ⟨⟨k', n'⟩, hr', rfl⟩ := map_eq_some_iff.1 hkind.symm
  rw [hr'] at hmoved
  simp only [map_some] at hmoved hr
  cases hmoved with
  | before le =>
    refine scans_lexeme hr hr' (fun line line' => ⟨.inl ?_, iff_of_true rfl fun turns => ?_, .inl rfl⟩) ?_
    · simp only [take_append_of_le_length le]
    · -- The lexeme would be all of `r`.
      obtain ⟨hspelt, hpos, hopens⟩ := turns
      obtain rfl : n = r.length := Nat.add_left_cancel (hpos.trans reach.symm)
      have hlexeme : ∀ {word : String}, word = "get" ∨ word = "set" →
          String.ofList (joined k' ((r ++ (x.old ++ x.rest)).take r.length)) = word → r = word.toList := by
        intro word hw ht
        rw [← take_of_joined (form_of_lexer_rule? hr) hw ht, take_left]
      exact hopens (hword (hspelt.imp (hlexeme (.inl rfl)) (hlexeme (.inr rfl))))
    · rw [drop_append_of_le_length le, drop_append_of_le_length le]
      refine .before ?_
      rw [length_drop]
      omega
  | across j =>
    have hdrop : ∀ w : List Char, (r ++ (w ++ x.rest)).drop (r.length + w.length + j) = x.rest.drop j := by
      intro w
      rw [← drop_drop, ← drop_drop, drop_left, drop_left]
    have past : x.place + x.old.length ≤ pos + (r.length + x.old.length + j) := by omega
    refine scans_lexeme hr hr' (fun line line' => .of_past past rfl (.inr ?_)) ?_
    · have hpos := length_pos_of_ne_nil hne
      simp only
      omega
    · rw [hdrop, hdrop]
      exact .behind past

/-- The words `get` and `set` right before the blanks. -/
theorem scans_turn (pos' : Nat) (reach : pos + r.length = x.place)
    (hword : r = "get".toList ∨ r = "set".toList) (hopens : opensName (x.old ++ x.rest) ≠ opensName (x.new ++ x.rest))
    (hr : l.rule? (r ++ (x.old ++ x.rest)) = some (k, r.length))
    (hr' : m.rule? (r ++ (x.new ++ x.rest)) = some (k', r.length)) (hk : k ∈ wordKinds) (hk' : k' ∈ wordKinds) (hne : k' ≠ k) :
    x.Scans (l.scanFrom (r ++ (x.old ++ x.rest)) pos) (m.scanFrom (r ++ (x.new ++ x.rest)) pos') := by
  have hjoined : ∀ {k : TokenKind}, k ∈ wordKinds → joined k r = r := fun hk =>
    if_neg (wordKinds_plain _ hk).2.2.2
  have hspelt : String.ofList r = "get" ∨ String.ofList r = "set" := by
    rcases hword with rfl | rfl
    · exact .inl rfl
    · exact .inr rfl
  refine scans_lexeme hr hr' (fun line line' => ⟨.inl ?_, ?_, .inr ⟨hk, hk'⟩⟩) ?_
  · rw [take_left, take_left, hjoined hk, hjoined hk']
  · rw [take_left, take_left, hjoined hk]
    exact iff_of_false hne (not_not.2 ⟨hspelt, reach, hopens⟩)
  · rw [drop_left, drop_left]
    exact .before (r := []) reach

/-- The lexer scans both texts. -/
theorem Stage.scanFrom (stage : x.Stage pos s s') (hm : l.mode = m.mode) (pos' : Nat) :
    x.Scans (l.scanFrom s pos) (m.scanFrom s' pos') := by
  cases stage with
  | behind past => exact scans_behind hm past pos'
  | @before r reach =>
    induction r generalizing l m pos pos' with
    | nil =>
      rw [nil_append, nil_append, scanFrom_blanks x.blanks.blank, scanFrom_blanks x.blanks'.blank]
      exact scans_behind hm (Nat.le_of_eq (congrArg (· + x.old.length) reach.symm)) _
    | cons c r ih =>
      have reach' : pos + 1 + r.length = x.place := by
        rw [length_cons] at reach
        omega
      cases hc : isBlank c with
      | true =>
        rw [cons_append, cons_append, scanFrom, scanFrom, if_pos hc, if_pos hc]
        exact ih hm (pos' + 1) reach'
      | false =>
        rcases rule?_before (x := x) hm (cons_ne_nil c r) with
          ⟨exchanged, hword⟩ | ⟨hword, hturn, k, k', hr, hr', hk, hk', hne⟩
        · cases hr : l.rule? (c :: r ++ (x.old ++ x.rest)) with
          | some e => exact scans_exchanged pos' (cons_ne_nil c r) reach exchanged hr (hword e.1 e.2 hr)
          | none =>
            have hr' : m.rule? (c :: r ++ (x.new ++ x.rest)) = none := by
              have hkind := exchanged.kind
              rw [hr] at hkind
              simpa using hkind.symm
            exact scans_none hm hc hr hr' fun l m hm => ih hm (pos' + 1) reach'
        · exact scans_turn pos' reach hword hturn hr hr' hk hk' hne

/-! ## Reading -/

variable (x) in
/-- The lexer stands at the same place of both texts, and will take a slash for the same. -/
structure Close (l m : Lexer) : Prop where
  left : l.Plain
  right : m.Plain
  opens : l.opensRegex = m.opensRegex
  restricted : l.cur.any (·.kind.isRestricted) = m.cur.any (·.kind.isRestricted)
  stage : x.Stage l.pos l.rest m.rest

/-- Behind the next blanks both texts are the same, or they go on with the same characters before the place. -/
theorem Stage.dropWhile (stage : x.Stage pos s s') : s.dropWhile isBlank = s'.dropWhile isBlank ∨
    ∃ r, r ≠ [] ∧ s.dropWhile isBlank = r ++ (x.old ++ x.rest) ∧ s'.dropWhile isBlank = r ++ (x.new ++ x.rest) := by
  cases stage with
  | behind => exact .inl rfl
  | @before r reach =>
    induction r generalizing pos with
    | nil =>
      rw [nil_append, nil_append, dropWhile_append_of_pos x.blanks.blank, dropWhile_append_of_pos x.blanks'.blank]
      exact .inl rfl
    | cons c r ih =>
      cases hc : isBlank c with
      | true =>
        rw [cons_append, cons_append, dropWhile_cons_of_pos hc, dropWhile_cons_of_pos hc]
        rw [length_cons] at reach
        exact ih (show pos + 1 + r.length = x.place by omega)
      | false =>
        rw [cons_append, cons_append, dropWhile_cons_of_neg (by simp [hc]), dropWhile_cons_of_neg (by simp [hc])]
        exact .inr ⟨c :: r, cons_ne_nil c r, rfl, rfl⟩

theorem Stage.opensSlash (stage : x.Stage pos s s') :
    opensSlash (s.dropWhile isBlank) = opensSlash (s'.dropWhile isBlank) := by
  rcases stage.dropWhile with h | ⟨r, hr, h, h'⟩
  · rw [h]
  · rw [h, h']
    exact opensSlash_exchanged x.blanks x.blanks' r x.rest hr

/-- Where nothing is left to read, both texts end in the same way. -/
theorem Close.endOf (close : x.Close l m) : m.endOf = l.endOf := by
  have hpos := x.blanks.length_pos
  have hpos' := x.blanks'.length_pos
  unfold Lexer.endOf
  rcases close.stage.dropWhile with h | ⟨r, hr, h, h'⟩
  · rw [h]
  · obtain ⟨c, r, rfl⟩ := exists_cons_of_ne_nil hr
    obtain ⟨d, s, hs⟩ := exists_cons_of_length_pos (l := r ++ (x.old ++ x.rest)) (by simp; omega)
    obtain ⟨d', s', hs'⟩ := exists_cons_of_length_pos (l := r ++ (x.new ++ x.rest)) (by simp; omega)
    rw [h, h', cons_append, cons_append, hs, hs']

/-- A word that tells the blanks apart stands before a name. -/
theorem Turns.opensSlash (turns : x.Turns t pos) (stage : x.Stage pos s s') :
    Lexeme.opensSlash (s.dropWhile isBlank) = false := by
  obtain ⟨-, hpos, hopens⟩ := turns
  have hname : x.rest.head?.any isNameStart := by
    by_contra hname
    rw [Bool.not_eq_true] at hname
    rw [opensName_blanks x.blanks, opensName_blanks x.blanks', hname, Bool.and_false, Bool.and_false] at hopens
    exact hopens rfl
  obtain ⟨c, hc, hstart⟩ := (any_eq_true _ _).1 hname
  obtain ⟨u, hu⟩ := head?_eq_some_iff.1 hc
  have hdrop : x.rest.dropWhile isBlank = x.rest := by
    rw [hu, dropWhile_cons_of_neg]
    intro hblank
    rw [isBlank_stops (p := isNameStart) (by decide) (by decide) hblank] at hstart
    cases hstart
  cases stage with
  | behind past =>
    have hplace := x.place_lt
    omega
  | @before r reach =>
    obtain rfl : r = [] := length_eq_zero_iff.1 (by omega)
    rw [nil_append, dropWhile_append_of_pos x.blanks.blank, hdrop]
    refine opensSlash_eq_false fun hslash => ?_
    rw [some.inj (hc.symm.trans hslash)] at hstart
    revert hstart
    decide

/-- After a token was read in both texts, the lexer again stands at the same place. -/
theorem Matches.close (matched : x.Matches t t' l.pos) (left : l.Plain) (right : m.Plain)
    (hcur : l.cur = some t) (hcur' : m.cur = some t') (stage : x.Stage l.pos l.rest m.rest) : x.Close l m := by
  refine ⟨left, right, ?_, ?_, stage⟩
  · rw [opensRegex_eq rfl, opensRegex_eq rfl, ← stage.opensSlash]
    by_cases hkind : t'.kind = t.kind
    · rw [slashDivides_eq, slashDivides_eq, hcur, hcur', map_some, map_some, hkind]
    · rw [Turns.opensSlash (not_not.1 (mt matched.kind.2 hkind)) stage]
      rfl
  · rw [hcur, hcur', any_some, any_some]
    rcases matched.words with hkind | ⟨hk, hk'⟩
    · rw [hkind]
    · rw [(wordKinds_plain _ hk).1, (wordKinds_plain _ hk').1]

theorem Close.readRegex (close : x.Close l m) : x.Follows x.Close l.readRegex m.readRegex := by
  have hscans := close.stage.scanFrom (l := { l with prev := l.cur, mode := .regex })
    (m := { m with prev := m.cur, mode := .regex }) rfl m.pos
  unfold Lexer.readRegex scan
  generalize hl : { l with prev := l.cur, mode := .regex }.scanFrom l.rest l.pos = r at hscans
  generalize hm : { m with prev := m.cur, mode := .regex }.scanFrom m.rest m.pos = r' at hscans
  cases hscans with
  | failed => exact .failed
  | ended => exact .ended
  | @read t t' l₁ m₁ matched stage =>
    have hkept := scan_kept hl
    have hkept' := scan_kept hm
    exact .read matched (Matches.close (l := { l₁ with cur := some t, mode := .ordinary }) matched
      ⟨hkept.loaded.trans close.left.loaded, rfl, hkept.pushed.trans close.left.pushed⟩
      ⟨hkept'.loaded.trans close.right.loaded, rfl, hkept'.pushed.trans close.right.pushed⟩ rfl rfl stage)

theorem advance_eq (h : { l with prev := l.cur }.scan = (.ok (some t), l₁)) :
    l.advance = if t.kind = .lineEnd && l.cur.any (·.kind.isRestricted) then
      (.ok (some ⟨.semi, ";", t.line, t.pos⟩), { l₁ with cur := some t, line := l₁.line + t.breaks })
      else (.ok (some t), { l₁ with cur := some t }) := by
  have hprev : l₁.prev = l.cur := (scan_kept h).prev
  unfold advance
  rw [h]
  simp only [hprev]
  rfl

theorem Matches.lineEnd_iff (h : x.Matches t t' pos) : t'.kind = .lineEnd ↔ t.kind = .lineEnd := by
  rcases h.words with hkind | ⟨hk, hk'⟩
  · rw [hkind]
  · exact iff_of_false (wordKinds_plain _ hk').2.2.1 (wordKinds_plain _ hk).2.2.1

theorem Matches.isTrivia_eq (h : x.Matches t t' pos) : t'.kind.isTrivia = t.kind.isTrivia := by
  rcases h.words with hkind | ⟨hk, hk'⟩
  · rw [hkind]
  · rw [(wordKinds_plain _ hk).2.1, (wordKinds_plain _ hk').2.1]

theorem Close.advance (close : x.Close l m) : x.Follows x.Close l.advance m.advance := by
  have hscans := close.stage.scanFrom (l := { l with prev := l.cur }) (m := { m with prev := m.cur })
    (close.left.mode.trans close.right.mode.symm) m.pos
  generalize hl : { l with prev := l.cur }.scanFrom l.rest l.pos = r at hscans
  generalize hm : { m with prev := m.cur }.scanFrom m.rest m.pos = r' at hscans
  cases hscans with
  | failed =>
    rw [Lexer.advance, scan, hl]
    exact .failed
  | ended =>
    rw [Lexer.advance, scan, hl, Lexer.advance, scan, hm]
    exact .ended
  | @read t t' l₁ m₁ matched stage =>
    have hkept := scan_kept hl
    have hkept' := scan_kept hm
    have left : ∀ line, { l₁ with cur := some t, line := line }.Plain := fun _ =>
      ⟨hkept.loaded.trans close.left.loaded, hkept.mode.trans close.left.mode, hkept.pushed.trans close.left.pushed⟩
    have right : ∀ line, { m₁ with cur := some t', line := line }.Plain := fun _ =>
      ⟨hkept'.loaded.trans close.right.loaded, hkept'.mode.trans close.right.mode, hkept'.pushed.trans close.right.pushed⟩
    have hcond : (t'.kind = .lineEnd && m.cur.any (·.kind.isRestricted)) =
        (t.kind = .lineEnd && l.cur.any (·.kind.isRestricted)) := by
      rw [close.restricted, decide_eq_decide.2 matched.lineEnd_iff]
    rw [advance_eq hl, advance_eq hm, hcond]
    split
    · refine .read ⟨.inl rfl, iff_of_true rfl ?_, .inl rfl⟩ (Matches.close
        (l := { l₁ with cur := some t, line := l₁.line + t.breaks }) matched (left _) (right _) rfl rfl stage)
      rintro ⟨hspelt, -⟩
      change ";" = "get" ∨ ";" = "set" at hspelt
      exact absurd hspelt (by decide)
    · exact .read matched (Matches.close (l := { l₁ with cur := some t }) matched (left _) (right _) rfl rfl stage)

theorem Close.raw (close : x.Close l m) : x.Follows x.Close l.raw m.raw := by
  unfold Lexer.raw
  rw [← close.opens]
  split
  · exact close.readRegex
  · exact close.advance

/-- Lines do not matter. -/
theorem Close.congr {m₁ : Lexer} (close : x.Close l m) (alike : Alike l l₁) (alike' : Alike m m₁)
    (hpushed : l₁.pushed = []) (hpushed' : m₁.pushed = []) : x.Close l₁ m₁ := by
  refine ⟨⟨alike.loaded ▸ close.left.loaded, alike.mode ▸ close.left.mode, hpushed⟩,
    ⟨alike'.loaded ▸ close.right.loaded, alike'.mode ▸ close.right.mode, hpushed'⟩, ?_, ?_, ?_⟩
  · rw [← alike.opensRegex, ← alike'.opensRegex, close.opens]
  · rw [← any_kind_of_bare alike.cur, ← any_kind_of_bare alike'.cur, close.restricted]
  · rw [← alike.pos, ← alike.rest, ← alike'.rest]
    exact close.stage

theorem Close.countBreaks (close : x.Close l m) (t t' : Token) : x.Close (l.countBreaks t) (m.countBreaks t') :=
  close.congr (countBreaks_alike l t) (countBreaks_alike m t') close.left.pushed close.right.pushed

theorem Matches.congr {u' : Token} (h : x.Matches t t' pos) (ht : u.bare = t.bare) (ht' : u'.bare = t'.bare) :
    x.Matches u u' pos := by
  have hspelt : ∀ {t u : Token}, u.bare = t.bare → u.text = t.text := by
    intro t u h
    show u.bare.text = t.bare.text
    rw [h]
  obtain ⟨htext, hkind, hwords⟩ := h
  unfold Turns at hkind
  rw [← kind_of_bare ht, ← kind_of_bare ht', ← hspelt ht] at hkind
  rw [← hspelt ht, ← hspelt ht', ← pos_of_bare ht] at htext
  rw [← kind_of_bare ht, ← kind_of_bare ht'] at hwords
  exact ⟨htext, hkind, hwords⟩

theorem Close.handOut (close : x.Close l m) (matched : x.Matches t t' l.pos) :
    x.Matches (l.handOut t).1 (m.handOut t').1 (l.handOut t).2.pos ∧ x.Close (l.handOut t).2 (m.handOut t').2 := by
  obtain ⟨ht, alike⟩ := handOut_alike l t
  obtain ⟨ht', alike'⟩ := handOut_alike m t'
  have hpushed : ∀ {l : Lexer} (t : Token), l.Plain → (l.handOut t).2.pushed = [] := by
    intro l t hl
    obtain ⟨cur, he⟩ := handOut_eq l t
    rw [he]
    exact hl.pushed
  rw [← alike.pos]
  exact ⟨matched.congr ht ht', close.congr alike alike' (hpushed t close.left) (hpushed t' close.right)⟩

theorem Close.skipTrivia (close : x.Close l m) (hfuel : l.rest.length < fuel) (hfuel' : m.rest.length < fuel') :
    x.Follows x.Close (skipTrivia fuel l) (skipTrivia fuel' m) := by
  induction fuel generalizing l m fuel' with
  | zero => cases hfuel
  | succ fuel ih =>
    obtain ⟨fuel', rfl⟩ : ∃ n, fuel' = n + 1 := ⟨fuel' - 1, by omega⟩
    have hraws := close.raw
    rw [skipTrivia_succ, skipTrivia_succ, close.endOf]
    generalize hl : l.raw = r at hraws
    generalize hm : m.raw = r' at hraws
    cases hraws with
    | failed => exact .failed
    | ended =>
      simp only
      cases hend : l.endOf with
      | error => exact .failed
      | ok =>
        cases endOf_ok hend
        exact .ended
    | read matched close₁ =>
      have hshort := (raw_read hl).shorter rfl
      have hshort' := (raw_read hm).shorter rfl
      simp only [matched.isTrivia_eq]
      split
      · refine ih (close₁.countBreaks _ _) ?_ ?_
        · exact Nat.lt_of_lt_of_le hshort (Nat.le_of_lt_succ hfuel)
        · exact Nat.lt_of_lt_of_le hshort' (Nat.le_of_lt_succ hfuel')
      · obtain ⟨matched', close₂⟩ := close₁.handOut matched
        exact .read matched' close₂

/-- The next tokens of both texts match. -/
theorem Close.token_follows (close : x.Close l m) : x.Follows x.Close l.token m.token := by
  rw [token_eq_skipTrivia close.left, token_eq_skipTrivia close.right]
  exact close.skipTrivia (Nat.lt_succ_self _) (Nat.lt_succ_self _)

theorem Close.token (close : x.Close l m) (h : l.token = (.ok (some t), l')) :
    ∃ t' m', m.token = (.ok (some t'), m') ∧ x.Matches t t' l'.pos ∧ x.Close l' m' := by
  have hfollows := close.token_follows
  rw [h] at hfollows
  generalize m.token = r at hfollows ⊢
  cases hfollows with
  | read matched next => exact ⟨_, _, rfl, matched, next⟩

theorem Close.token_none (close : x.Close l m) (h : l.token = (.ok none, l')) : ∃ m', m.token = (.ok none, m') := by
  have hfollows := close.token_follows
  rw [h] at hfollows
  generalize m.token = r at hfollows ⊢
  cases hfollows with
  | ended => exact ⟨_, rfl⟩

theorem restricted_cur (l : Lexer) (h : l.cur.any (·.kind.isRestricted)) : (l.cur.map (·.kind)).any (·.isRestricted) := by
  rwa [Option.any_map]

/-! ## The tokens of both texts -/

theorem token_bounds (hl : l.Plain) (h : l.token = (.ok (some t), l')) : l.pos ≤ t.pos ∧ t.pos ≤ l'.pos ∧ l.pos < l'.pos := by
  have hshort := (token_read hl.pushed h).shorter rfl
  rw [token_eq_skipTrivia hl] at h
  obtain ⟨ps, n, hreached, hspans, -⟩ := (skipTrivia_laid (Nat.lt_succ_self _) h (restricted_cur l)).2 t rfl
  have hspan := hreached.laid.span_bounds (s := (t, n)) (by simp [hspans])
  rw [hreached.text, length_append] at hshort
  have hpos := hreached.pos
  simp only at hspan
  omega

/-- A token is the same in both texts if it ends before the blanks, but not right before them, or if it is read behind
them. -/
theorem Close.token_same (close : x.Close l m) (h : l.token = (.ok (some t), l'))
    (away : l'.pos < x.place ∨ x.place + x.old.length ≤ t.pos) :
    ∃ t' m', m.token = (.ok (some t'), m') ∧ t'.text = t.text ∧ t'.kind = t.kind ∧ x.Close l' m' := by
  obtain ⟨t', m', htoken, matched, close'⟩ := close.token h
  have hbounds := token_bounds close.left h
  have hplace := x.place_lt
  refine ⟨t', m', htoken, matched.text.resolve_right fun across => ?_, matched.kind.2 fun turns => ?_, close'⟩
  · omega
  · have hpos := turns.2.1
    omega

/-- Before the blanks the tokens are the same. -/
theorem Close.reads (close : x.Close l m) (h : Reads l ts l') (away : l'.pos < x.place) :
    ∃ ts' m', Reads m ts' m' ∧ ts'.map (·.text) = ts.map (·.text) ∧ ts'.map (·.kind) = ts.map (·.kind) ∧ x.Close l' m' := by
  induction h with
  | nil => exact ⟨[], m, .nil, rfl, rfl, close⟩
  | @snoc ts t l₁ l' before next ih =>
    have hbounds := token_bounds (before.plain_of close.left) next
    obtain ⟨ts', m₁, reads, htexts, hkinds, close₁⟩ := ih (by omega)
    obtain ⟨t', m', htoken, htext, hkind, close'⟩ := close₁.token_same next (.inl away)
    refine ⟨ts' ++ [t'], m', reads.snoc htoken, ?_, ?_, close'⟩
    · simp [htexts, htext]
    · simp [hkinds, hkind]

/-- Behind the blanks the tokens are the same, up to the end of the text. -/
theorem Close.drainFrom (close : x.Close l m) (past : x.place + x.old.length ≤ l.pos)
    (hfuel : l.rest.length < fuel) (hfuel' : m.rest.length < fuel') (h : drainFrom fuel l = (ts, .ok (), l')) :
    ∃ ts' m', drainFrom fuel' m = (ts', .ok (), m') ∧ ts'.map (·.text) = ts.map (·.text) ∧
      ts'.map (·.kind) = ts.map (·.kind) := by
  induction fuel generalizing l m ts fuel' with
  | zero => cases hfuel
  | succ fuel ih =>
    obtain ⟨fuel', rfl⟩ : ∃ n, fuel' = n + 1 := ⟨fuel' - 1, by omega⟩
    rw [drainFrom] at h ⊢
    rcases htoken : l.token with ⟨e | _ | t, l₁⟩
    · rw [htoken] at h
      cases (Prod.mk.inj (Prod.mk.inj h).2).1
    · obtain ⟨m', htoken'⟩ := close.token_none htoken
      rw [htoken] at h
      obtain ⟨rfl, -⟩ := Prod.mk.inj h
      rw [htoken']
      exact ⟨[], m', rfl, rfl, rfl⟩
    · have hbounds := token_bounds close.left htoken
      obtain ⟨t', m₁, htoken', htext, hkind, close₁⟩ := close.token_same htoken (.inr (Nat.le_trans past hbounds.1))
      have hshort := (token_read close.left.pushed htoken).shorter rfl
      have hshort' := (token_read close.right.pushed htoken').shorter rfl
      rw [htoken] at h
      obtain ⟨rfl, he⟩ := Prod.mk.inj h
      obtain ⟨ts', m', hdrain, htexts, hkinds⟩ := ih close₁ (by omega) (by omega)
        (show m₁.rest.length < fuel' by omega) (Prod.ext rfl he)
      rw [htoken']
      simp only [hdrain]
      refine ⟨_, m', rfl, ?_, ?_⟩
      · rw [map_cons, map_cons, htext, htexts]
      · rw [map_cons, map_cons, hkind, hkinds]

theorem reads_snoc (h : Reads l (ts ++ [t]) m) : ∃ m₀, Reads l ts m₀ ∧ m₀.token = (.ok (some t), m) := by
  generalize hts : ts ++ [t] = us at h
  cases h with
  | nil => simp at hts
  | snoc before next =>
    obtain ⟨rfl, hlast⟩ := append_inj' hts rfl
    obtain rfl := (List.cons.inj hlast).1
    exact ⟨_, before, next⟩

/-- The tokens of both texts, where the blanks stand between the tokens `t` and `u`. -/
theorem Close.drain {l₀ m₀ m' : Lexer} {us : List Token} (close : x.Close l₀ m₀)
    (h : l₀.drain = (ts, .ok (), l)) (read : Reads l₀ (us ++ [t]) m) (next : m.token = (.ok (some u), m'))
    (starts : m.pos ≤ x.place) (ends : x.place + x.old.length ≤ u.pos) :
    ∃ ts' l', m₀.drain = (ts', .ok (), l') ∧ ts'.map (·.text) = ts.map (·.text) ∧
      (ts'.map (·.kind) = ts.map (·.kind) ↔ ¬x.Turns t m.pos) := by
  obtain ⟨m₁, before, last⟩ := reads_snoc read
  have hbounds := token_bounds (before.plain_of close.left) last
  have hbounds' := token_bounds (read.plain_of close.left) next
  obtain ⟨us', n₁, reads, htexts, hkinds, close₁⟩ := close.reads before (by omega)
  obtain ⟨t', n, htoken, matched, close₂⟩ := close₁.token last
  obtain ⟨u', n', htoken', htext', hkind', close₃⟩ := close₂.token_same next (.inr ends)
  have htext : t'.text = t.text := matched.text.resolve_right fun across => by
    have hplace := x.place_lt
    omega
  have reads' := (reads.snoc htoken).snoc htoken'
  have hlength := (read.snoc next).length_le close.left.pushed
  have hlength' := reads'.length_le close.right.pushed
  unfold Lexer.drain at h ⊢
  rw [close.left.pushed, (read.snoc next).drainFrom (by simp at hlength ⊢; omega)] at h
  obtain ⟨rfl, he⟩ := Prod.mk.inj h
  obtain ⟨vs', l', hdrain, htexts', hkinds'⟩ := close₃.drainFrom (by omega) (by simp at hlength ⊢; omega)
    (show n'.rest.length < [].length + m₀.rest.length + 1 - (us' ++ [t'] ++ [u']).length by simp at hlength' ⊢; omega)
    (Prod.ext rfl he)
  rw [close.right.pushed, reads'.drainFrom (by simp at hlength' ⊢; omega), hdrain]
  refine ⟨_, l', rfl, ?_, ?_⟩
  · simp [htexts, htext, htext', htexts']
  · rw [← matched.kind]
    simp [hkinds, hkind', hkinds']

/-- The lexer before both texts. -/
theorem close_start {a : List Char} (ha : a.length = x.place) :
    x.Close (({} : Lexer).input (String.ofList (a ++ (x.old ++ x.rest))))
      (({} : Lexer).input (String.ofList (a ++ (x.new ++ x.rest)))) := by
  have stage : x.Stage 0 (String.ofList (a ++ (x.old ++ x.rest))).toList (String.ofList (a ++ (x.new ++ x.rest))).toList := by
    rw [String.toList_ofList, String.toList_ofList]
    exact .before (by rw [Nat.zero_add, ha])
  refine ⟨⟨rfl, rfl, rfl⟩, ⟨rfl, rfl, rfl⟩, ?_, rfl, stage⟩
  rw [opensRegex_eq rfl, opensRegex_eq rfl]
  exact congrArg (· && true) stage.opensSlash

theorem turns_iff : x.Turns t pos ↔ (t.text = "get" ∨ t.text = "set") ∧ pos = x.place ∧ x.rest.head?.any isNameStart ∧
      ¬(x.old.length = 1 ↔ x.new.length = 1) := by
  unfold Turns
  rw [opensName_blanks x.blanks, opensName_blanks x.blanks']
  cases x.rest.head?.any isNameStart with
  | false => simp
  | true => simp

end Exchange

open Exchange

/-- Blanks between two tokens `t` and `u` of a text are exchanged for others. The tokens keep their texts. They also keep their
kinds, unless `t` is a word `get` or `set` right before the blanks, a name follows the blanks, and one of them is a single
character and the other one is not. -/
theorem blanks_irrelevant_iff {a w w' b : String} (hw : Blanks w.toList) (hw' : Blanks w'.toList) {ts us : List Token}
    {t u : Token} {l m m' : Lexer} (h : tokenize (a ++ w ++ b) = (ts, .ok (), l))
    (read : Reads (({} : Lexer).input (a ++ w ++ b)) (us ++ [t]) m) (next : m.token = (.ok (some u), m'))
    (starts : m.pos ≤ a.length) (ends : a.length + w.length ≤ u.pos) :
    ∃ ts' l', tokenize (a ++ w' ++ b) = (ts', .ok (), l') ∧ ts'.map (·.text) = ts.map (·.text) ∧
      (ts'.map (·.kind) = ts.map (·.kind) ↔ ¬((t.text = "get" ∨ t.text = "set") ∧ m.pos = a.length ∧
        b.toList.head?.any isNameStart = true ∧ ¬(w.length = 1 ↔ w'.length = 1))) := by
  have hlist : ∀ w : String, String.ofList (a.toList ++ (w.toList ++ b.toList)) = a ++ w ++ b := by
    intro w
    rw [String.ofList_append, String.ofList_append, String.ofList_toList, String.ofList_toList, String.ofList_toList,
      String.append_assoc]
  have close := close_start (x := ⟨a.length, w.toList, w'.toList, b.toList, hw, hw'⟩) (a := a.toList) String.length_toList
  simp only [hlist] at close
  obtain ⟨ts', l', hdrain, htexts, hkinds⟩ := close.drain h read next starts (by rwa [String.length_toList])
  refine ⟨ts', l', hdrain, htexts, ?_⟩
  rw [hkinds, turns_iff]
  simp only [String.length_toList]

/-- The word `get` is read as another token before two blanks than before one. -/
theorem get_lost_before_two_blanks :
    ∃ ts l ts' l', tokenize ("get" ++ " " ++ "x") = (ts, .ok (), l) ∧ tokenize ("get" ++ "  " ++ "x") = (ts', .ok (), l') ∧
      ts'.map (·.text) = ts.map (·.text) ∧ ts'.map (·.kind) ≠ ts.map (·.kind) := by
  have read : Reads (({} : Lexer).input ("get" ++ " " ++ "x")) ([] ++ [⟨.getProp, "get", 1, 0⟩])
      (({} : Lexer).input ("get" ++ " " ++ "x")).token.2 := Reads.nil.snoc (by decide)
  have next : (({} : Lexer).input ("get" ++ " " ++ "x")).token.2.token =
      (.ok (some ⟨.identifier, "x", 1, 4⟩), (({} : Lexer).input ("get" ++ " " ++ "x")).token.2.token.2) := by decide
  have hrun : tokenize ("get" ++ " " ++ "x") =
      ([⟨.getProp, "get", 1, 0⟩, ⟨.identifier, "x", 1, 4⟩], .ok (), (tokenize ("get" ++ " " ++ "x")).2.2) := by decide
  have blanks : Blanks " ".toList ∧ Blanks "  ".toList :=
    ⟨⟨by decide, List.all_eq_true.1 rfl⟩, ⟨by decide, List.all_eq_true.1 rfl⟩⟩
  obtain ⟨ts', l', hrun', htexts, hkinds⟩ :=
    blanks_irrelevant_iff blanks.1 blanks.2 hrun read next (by decide) (by decide)
  exact ⟨_, _, ts', l', hrun, hrun', htexts, fun hsame => hkinds.1 hsame (by decide)⟩

end JsMinify
