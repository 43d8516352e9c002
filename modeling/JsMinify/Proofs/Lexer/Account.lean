import JsMinify.Proofs.Lexer.Found

/-!
# Every character of a text

A text that is read to its end falls into stretches that lie one behind the other: lexemes of tokens, blanks,
line breaks, comments and illegal characters (`Stretch`). `Lexer.drainFrom_laid` follows the lexer through the
text and lays out the stretches it passes. So the tokens stand in the order of the text and share no character,
and whatever lies between them is accounted for (`tokenize_accounts`).
-/

namespace JsMinify

open List Option

variable {t : Token} {s : List Char} {n : Nat} {r : IllegalChar} {k : TokenKind} {p : Stretch} {c : Char}
  {last : Option TokenKind} {l l' : Lexer} {ps : List Stretch}

namespace Lexeme

/-- A comment from its beginning to its end: up to a line break, or up to the first `*/`. -/
def IsComment (w : List Char) : Prop :=
  (∃ body, w = '/' :: '/' :: body ∧ '\n' ∉ body) ∨
    ∃ body, w = '/' :: '*' :: (body ++ ['*', '/']) ∧ ¬['*', '/'] <:+: body ++ ['*']

theorem blockTail?_take (h : blockTail? s = some n) :
    n ≤ s.length ∧ ∃ body, s.take n = body ++ ['*', '/'] ∧ ¬['*', '/'] <:+: body ++ ['*'] := by
  fun_induction blockTail? s generalizing n with
  | case1 => cases h
  | case2 s =>
    cases h
    refine ⟨by simp, [], by simp, ?_⟩
    intro hinfix
    exact absurd hinfix.length_le (by decide)
  | case3 c s hne ih =>
    obtain ⟨m, hm, rfl⟩ := map_eq_some_iff.1 h
    obtain ⟨hle, body, htake, hfirst⟩ := ih hm
    refine ⟨by simpa using hle, c :: body, by rw [take_succ_cons, htake, cons_append], ?_⟩
    rw [cons_append, infix_cons_iff]
    rintro (hstart | hinside)
    · rw [cons_prefix_cons] at hstart
      obtain ⟨rfl, hslash⟩ := hstart
      -- The slash behind the star would be the first character that is left.
      obtain ⟨r, hr⟩ := hslash
      have hhead : s.head? = some '/' := by
        have htext := take_append_drop m s
        rw [htake] at htext
        rw [← htext]
        cases body with
        | nil => cases hr
        | cons d body =>
          rw [(cons.inj hr).1]
          rfl
      obtain ⟨r, rfl⟩ := head?_eq_some_iff.1 hhead
      exact hne r rfl rfl
    · exact hfirst hinside

theorem isComment_of_blockComment? (h : blockComment? s = some n) : n ≤ s.length ∧ IsComment (s.take n) := by
  obtain ⟨s, m, rfl, hm, rfl⟩ := blockComment?_eq h
  obtain ⟨hle, body, htake, hfirst⟩ := blockTail?_take hm
  refine ⟨by simpa using hle, .inr ⟨body, ?_, hfirst⟩⟩
  rw [take_succ_cons, take_succ_cons, htake]

theorem isComment_of_lineComment? (h : lineComment? s = some n) : n ≤ s.length ∧ IsComment (s.take n) := by
  obtain ⟨s, rfl, rfl⟩ := lineComment?_eq h
  have hrun := run_le (fun c => c != '\n' && c != '\r') s
  rw [Nat.add_comm]
  refine ⟨by simpa using hrun, .inl ⟨s.take (run (fun c => c != '\n' && c != '\r') s), rfl, ?_⟩⟩
  intro hbreak
  have hall := all_take_run (fun c => c != '\n' && c != '\r') s _ hbreak
  cases hall

/-- A lexeme lies within the text. -/
theorem Form.le (h : Form s k n) : n ≤ s.length := by
  cases h with
  | string h => exact string?_le h
  | getter h | setter h =>
    obtain ⟨rfl, hp⟩ := accessor?_length h
    exact hp.length_le
  | word h => exact name?_le h
  | number h => exact number?_le h
  | blockComment h => exact (isComment_of_blockComment? h).1
  | lineComment h => exact (isComment_of_lineComment? h).1
  | lineEnd h =>
    unfold lineEnd? at h
    split at h
    · cases h
      simp
    · cases h
  | punctuator _ hp =>
    rw [← String.length_toList]
    exact (List.isPrefixOf_iff_prefix.1 hp).length_le
  | regex h => exact regex?_le h

/-- What stands between the tokens of a program is a line break or a comment. -/
theorem Form.between (h : Form s k n) (hk : k.isTrivia) : s.take n = ['\n'] ∨ IsComment (s.take n) := by
  rcases h.trivia_cases hk with ⟨-, h⟩ | ⟨-, h⟩ | ⟨-, r, rfl, rfl⟩
  · exact .inr (isComment_of_blockComment? h).2
  · exact .inr (isComment_of_lineComment? h).2
  · exact .inl rfl

end Lexeme

open Lexeme

/-- What a stretch of a text is to the lexer. -/
inductive Stretch where
  | token (t : Token) (lexeme : List Char)
  | blank (c : Char)
  | lineBreak
  | comment (text : List Char)
  | illegal (r : IllegalChar)

namespace Stretch

def chars : Stretch → List Char
  | .token _ w | .comment w => w
  | .blank c => [c]
  | .lineBreak => ['\n']
  | .illegal r => [r.char]

/-- The token of a stretch, with the length of its lexeme. -/
def span? : Stretch → Option (Token × Nat)
  | .token t w => some (t, w.length)
  | _ => none

def illegal? : Stretch → Option IllegalChar
  | .illegal r => some r
  | _ => none

/-- The kind of the last token after a stretch. -/
def after (last : Option TokenKind) : Stretch → Option TokenKind
  | .token t _ => some t.kind
  | _ => last

/-- A stretch that lies at a position, behind a token of the kind `last`. The text of a token is its lexeme, with
the lines of a string joined, or a semicolon for the line break after a word that a line break ends. -/
def Fits (last : Option TokenKind) (pos : Nat) : Stretch → Prop
  | .token t w => t.pos = pos ∧ w ≠ [] ∧ t.kind.isTrivia = false ∧
      (t.text.toList = Lexer.joined t.kind w ∨ t.kind = .semi ∧ t.text = ";" ∧ w = ['\n'] ∧ last.any (·.isRestricted) = true)
  | .blank c => Lexer.isBlank c = true
  | .lineBreak => True
  | .comment w => IsComment w
  | .illegal r => r.pos = pos

end Stretch

/-- Stretches that lie one behind the other from a position on. -/
def Laid (last : Option TokenKind) (pos : Nat) : List Stretch → Prop
  | [] => True
  | p :: ps => p.Fits last pos ∧ Laid (p.after last) (pos + p.chars.length) ps

namespace Stretch

def textOf (ps : List Stretch) : List Char := ps.flatMap chars

/-- The tokens of stretches, with the lengths of their lexemes. -/
def spans (ps : List Stretch) : List (Token × Nat) := ps.filterMap span?

def illegals (ps : List Stretch) : List IllegalChar := ps.filterMap illegal?

def afterAll (last : Option TokenKind) (ps : List Stretch) : Option TokenKind := ps.foldl after last

theorem textOf_append (ps qs : List Stretch) : textOf (ps ++ qs) = textOf ps ++ textOf qs := flatMap_append

theorem spans_append (ps qs : List Stretch) : spans (ps ++ qs) = spans ps ++ spans qs := filterMap_append

theorem illegals_append (ps qs : List Stretch) : illegals (ps ++ qs) = illegals ps ++ illegals qs :=
  filterMap_append

theorem afterAll_eq (last : Option TokenKind) (ps : List Stretch) :
    afterAll last ps = ((spans ps).getLast?.map (·.1.kind)).or last := by
  induction ps generalizing last with
  | nil => rfl
  | cons p ps ih =>
    have hstep : afterAll last (p :: ps) = afterAll (p.after last) ps := rfl
    rw [hstep, ih]
    cases p with
    | token t w =>
      have hspans : spans (.token t w :: ps) = (t, w.length) :: spans ps := rfl
      rw [hspans]
      cases hlast : spans ps with
      | nil => rfl
      | cons s ss =>
        rw [getLast?_cons_cons]
        obtain ⟨e, he⟩ := ne_none_iff_exists'.1 (mt getLast?_eq_none_iff.1 (cons_ne_nil s ss))
        rw [he]
        rfl
    | _ => rfl

end Stretch

open Stretch

namespace Laid

variable {pos : Nat} {qs : List Stretch}

theorem append : Laid last pos (ps ++ qs) ↔ Laid last pos ps ∧ Laid (afterAll last ps) (pos + (textOf ps).length) qs := by
  induction ps generalizing last pos with
  | nil => exact ⟨fun h => ⟨trivial, h⟩, fun h => h.2⟩
  | cons p ps ih =>
    have htext : (textOf (p :: ps)).length = p.chars.length + (textOf ps).length := by
      rw [textOf, flatMap_cons, length_append]
      rfl
    rw [cons_append, Laid, Laid, ih, htext, Nat.add_assoc, and_assoc]
    rfl

/-- Where a stretch lies. -/
theorem fits (h : Laid last pos (ps ++ p :: qs)) : p.Fits (afterAll last ps) (pos + (textOf ps).length) := (append.1 h).2.1

end Laid

/-! ## Reading -/

namespace Lexer

/-- Reading from one state to another passed over these stretches. -/
structure Passed (last : Option TokenKind) (l l' : Lexer) (ps : List Stretch) : Prop where
  text : l.rest = textOf ps ++ l'.rest
  illegal : l'.illegal = l.illegal ++ illegals ps
  laid : Laid last l.pos ps

/-- Reading passed over these stretches and stands behind them. At the end of the text it stands further on. -/
structure Reached (last : Option TokenKind) (l l' : Lexer) (ps : List Stretch) : Prop extends
    Passed last l l' ps where
  pos : l'.pos = l.pos + (textOf ps).length

/-- Blanks and illegal characters, and the lexeme behind them if there is one. -/
theorem scanFrom_laid {pos : Nat} {r : Option Token} (h : l.scanFrom s pos = (.ok r, l')) (last : Option TokenKind) :
    ∃ ps v, s = textOf ps ++ v ∧ Laid last pos ps ∧ spans ps = [] ∧ l'.illegal = l.illegal ++ illegals ps ∧
      (r = none → v = [] ∧ l'.rest = []) ∧
      ∀ t, r = some t → ∃ n, l.rule? v = some (t.kind, n) ∧ t.text.toList = joined t.kind (v.take n) ∧
        t.pos = pos + (textOf ps).length ∧ l'.rest = v.drop n ∧ l'.pos = t.pos + n := by
  induction s generalizing l pos with
  | nil =>
    obtain ⟨hr, rfl⟩ := Prod.mk.inj h
    cases hr
    exact ⟨[], [], rfl, trivial, rfl, (append_nil _).symm, fun _ => ⟨rfl, rfl⟩, by rintro t ⟨⟩⟩
  | cons c s ih =>
    rw [scanFrom] at h
    split at h
    · next hc =>
      obtain ⟨ps, v, hs, hlaid, hspans, hillegal, hend, hfound⟩ := ih h
      have htext : textOf (.blank c :: ps) = c :: textOf ps := rfl
      refine ⟨.blank c :: ps, v, by rw [hs, htext, cons_append], ⟨hc, hlaid⟩, hspans, hillegal, hend, ?_⟩
      rw [htext, length_cons, Nat.add_comm _ 1, ← Nat.add_assoc]
      exact hfound
    · split at h
      · next k n hrule =>
        obtain ⟨line, -, htake⟩ := take_eq l (c :: s) pos k n
        rw [htake] at h
        obtain ⟨hr, rfl⟩ := Prod.mk.inj h
        cases hr
        refine ⟨[], c :: s, rfl, trivial, rfl, (append_nil _).symm, by rintro ⟨⟩, fun t ht => ?_⟩
        cases ht
        exact ⟨n, hrule, String.toList_ofList, rfl, rfl, rfl⟩
      · split at h
        · next hm =>
          obtain ⟨ps, v, hs, hlaid, hspans, hillegal, hend, hfound⟩ := ih h
          have htext : textOf (.illegal ⟨c, l.line, pos, l.prev⟩ :: ps) = c :: textOf ps := rfl
          refine ⟨.illegal ⟨c, l.line, pos, l.prev⟩ :: ps, v, by rw [hs, htext, cons_append], ⟨rfl, hlaid⟩,
            hspans, by rw [hillegal, append_assoc]; rfl, hend, ?_⟩
          rw [htext, length_cons, Nat.add_comm _ 1, ← Nat.add_assoc]
          exact hfound
        · cases (Prod.mk.inj h).1

/-- The stretch of a raw token that was scanned. -/
theorem scan_laid (h : l.scan = (.ok (some t), l')) (last : Option TokenKind) :
    ∃ ps w, l.rest = textOf ps ++ (w ++ l'.rest) ∧ Laid last l.pos ps ∧ spans ps = [] ∧
      l'.illegal = l.illegal ++ illegals ps ∧ t.pos = l.pos + (textOf ps).length ∧ l'.pos = t.pos + w.length ∧
      t.text.toList = joined t.kind w ∧ w ≠ [] ∧ (t.kind.isTrivia → w = ['\n'] ∨ IsComment w) ∧
      (t.kind = .lineEnd → w = ['\n']) := by
  obtain ⟨ps, v, hs, hlaid, hspans, hillegal, -, hfound⟩ := scanFrom_laid h last
  obtain ⟨n, hrule, htext, hpos, hrest, hpos'⟩ := hfound t rfl
  have hform := form_of_lexer_rule? hrule
  have hlen : (v.take n).length = n := length_take_of_le hform.le
  refine ⟨ps, v.take n, ?_, hlaid, hspans, hillegal, hpos, by rw [hlen, hpos'], htext, ?_, hform.between, fun hk => ?_⟩
  · rw [hs, hrest, take_append_drop]
  · rw [ne_eq, ← length_eq_zero_iff, hlen]
    exact Nat.ne_of_gt hform.pos
  · obtain ⟨r, rfl, rfl⟩ := hform.lineEnd_eq hk
    rfl

/-- A stretch that was read as a raw token: a token of the program, or what stands between such tokens. -/
def IsFor (t : Token) (p : Stretch) : Prop :=
  if t.kind.isTrivia then p.span? = none ∧ p.illegal? = none else ∃ w, p = .token t w

theorem spans_of_isFor (h : IsFor t p) (ht : t.kind.isTrivia) : p.span? = none := by
  unfold IsFor at h
  rw [if_pos ht] at h
  exact h.1

theorem illegal?_of_isFor (h : IsFor t p) : p.illegal? = none := by
  unfold IsFor at h
  split at h
  · exact h.2
  · obtain ⟨w, rfl⟩ := h
    rfl

variable {w : List Char}

/-- The stretch of a token of the program, or of what stands between such tokens. -/
theorem exists_stretch {pos : Nat} (last : Option TokenKind) (hpos : t.pos = pos) (hw : w ≠ [])
    (htext : t.text.toList = joined t.kind w) (htrivia : t.kind.isTrivia → w = ['\n'] ∨ IsComment w) :
    ∃ p : Stretch, p.chars = w ∧ p.Fits last pos ∧ IsFor t p := by
  cases ht : t.kind.isTrivia with
  | true =>
    rcases htrivia ht with rfl | hcomment
    · exact ⟨.lineBreak, rfl, trivial, by rw [IsFor, if_pos ht]; exact ⟨rfl, rfl⟩⟩
    · exact ⟨.comment w, rfl, hcomment, by rw [IsFor, if_pos ht]; exact ⟨rfl, rfl⟩⟩
  | false => exact ⟨.token t w, rfl, ⟨hpos, hw, ht, .inl htext⟩, by rw [IsFor, ht]; exact ⟨w, rfl⟩⟩

/-- One raw token is read: it lies behind blanks and illegal characters. -/
theorem raw_laid (h : l.raw = (.ok (some t), l')) (hcur : l.cur.any (·.kind.isRestricted) → last.any (·.isRestricted)) :
    ∃ ps p, Reached last l l' (ps ++ [p]) ∧ spans ps = [] ∧ IsFor t p ∧
      (l'.cur.any (·.kind.isRestricted) → t.kind.isRestricted) := by
  have hreached : ∀ {ps : List Stretch} {p : Stretch} {l' : Lexer}, l.rest = textOf ps ++ (p.chars ++ l'.rest) →
      Laid last l.pos ps → spans ps = [] → p.Fits last (l.pos + (textOf ps).length) → p.illegal? = none →
      l'.illegal = l.illegal ++ illegals ps → l'.pos = l.pos + (textOf ps).length + p.chars.length →
      Reached last l l' (ps ++ [p]) := by
    intro ps p l' htext hlaid hspans hfits hlegal hillegal hpos
    have hafter : afterAll last ps = last := by
      rw [afterAll_eq, hspans]
      rfl
    have hone : textOf [p] = p.chars := flatMap_singleton _ _
    refine ⟨⟨?_, ?_, Laid.append.2 ⟨hlaid, ?_, trivial⟩⟩, ?_⟩
    · rw [textOf_append, hone, htext, append_assoc]
    · have hnone : illegals [p] = [] := by
        rw [illegals, filterMap_cons_none hlegal]
        rfl
      rw [illegals_append, hnone, append_nil, hillegal]
    · rwa [hafter]
    · rw [textOf_append, hone, length_append, hpos, Nat.add_assoc]
  obtain ⟨mode, mode', l₁, r₁, hscan, -, ⟨rfl, rfl⟩ | ⟨hrestricted, u, rfl, hk, ht, rfl⟩⟩ := raw_ok h
  · obtain ⟨ps, w, hrest, hlaid, hspans, hillegal, hpos, hpos', htext, hw, htrivia, -⟩ := scan_laid hscan last
    obtain ⟨p, rfl, hfits, hfor⟩ := exists_stretch last hpos hw htext htrivia
    have hlegal := illegal?_of_isFor hfor
    exact ⟨ps, p, hreached hrest hlaid hspans hfits hlegal hillegal (hpos ▸ hpos'), hspans, hfor, id⟩
  · cases ht
    obtain ⟨ps, w, hrest, hlaid, hspans, hillegal, hpos, hpos', -, -, -, hbreak⟩ := scan_laid hscan last
    obtain rfl := hbreak hk
    refine ⟨ps, .token ⟨.semi, ";", u.line, u.pos⟩ ['\n'], hreached hrest hlaid hspans ?_ rfl hillegal (hpos ▸ hpos'),
      hspans, ⟨_, rfl⟩, fun hany => ?_⟩
    · exact ⟨hpos, cons_ne_nil _ _, rfl, .inr ⟨rfl, rfl, rfl, hcur hrestricted⟩⟩
    · change u.kind.isRestricted = true at hany
      rw [hk] at hany
      cases hany

/-- Nothing is left of the text. -/
theorem raw_laid_end (h : l.raw = (.ok none, l')) (last : Option TokenKind) :
    ∃ ps, Passed last l l' ps ∧ spans ps = [] ∧ l'.rest = [] := by
  obtain ⟨mode, mode', l₁, r₁, hscan, -, ⟨rfl, rfl⟩ | ⟨-, u, -, -, ht, -⟩⟩ := raw_ok h
  · obtain ⟨ps, v, hs, hlaid, hspans, hadded, hnone, -⟩ := scanFrom_laid hscan last
    obtain ⟨rfl, hend⟩ := hnone rfl
    exact ⟨ps, ⟨hend ▸ hs, hadded, hlaid⟩, hspans, hend⟩
  · cases ht

section

variable {l₁ : Lexer} {qs : List Stretch}

theorem Reached.then_passed (h : Reached last l l₁ ps) (h' : Passed (afterAll last ps) l₁ l' qs) :
    Passed last l l' (ps ++ qs) := by
  refine ⟨?_, ?_, Laid.append.2 ⟨h.laid, h.pos ▸ h'.laid⟩⟩
  · rw [h.text, h'.text, textOf_append, append_assoc]
  · rw [h'.illegal, h.illegal, illegals_append, append_assoc]

theorem Reached.trans (h : Reached last l l₁ ps) (h' : Reached (afterAll last ps) l₁ l' qs) :
    Reached last l l' (ps ++ qs) := by
  refine ⟨h.then_passed h'.toPassed, ?_⟩
  rw [h'.pos, h.pos, textOf_append, length_append, Nat.add_assoc]

end

/-- A token that is handed out takes a line, and stands where it was read. -/
theorem Reached.handOut
    (h : Reached last l l' (ps ++ [.token t w])) : Reached last l (l'.handOut t).2 (ps ++ [.token (l'.handOut t).1 w]) := by
  obtain ⟨cur, he⟩ := handOut_eq l' t
  have htext : ∀ u, textOf (ps ++ [.token u w]) = textOf ps ++ w := by
    intro u
    rw [textOf_append]
    exact congrArg _ (flatMap_singleton _ _)
  have hillegal : ∀ u, illegals (ps ++ [.token u w]) = illegals ps := by
    intro u
    rw [illegals_append]
    exact append_nil _
  have hlaid := Laid.append.1 h.laid
  rw [he]
  refine ⟨⟨?_, ?_, Laid.append.2 ⟨hlaid.1, hlaid.2⟩⟩, ?_⟩
  · rw [htext, ← htext t]
    exact h.text
  · rw [hillegal, ← hillegal t]
    exact h.illegal
  · rw [htext, ← htext t]
    exact h.pos

theorem restricted_of_handOut (hcur : l.cur.any (·.kind.isRestricted) → t.kind.isRestricted)
    (h : (l.handOut t).2.cur.any (·.kind.isRestricted)) : (l.handOut t).1.kind.isRestricted := by
  unfold handOut at h ⊢
  simp only at h ⊢
  split at h
  · exact h
  · exact hcur h

theorem isRestricted_of_isTrivia (h : k.isTrivia) : k.isRestricted = false := by
  cases k <;> first | rfl | cases h

variable {fuel : Nat}

/-- One token of the program is read, or the text is at its end. -/
theorem skipTrivia_laid {r : Option Token} (hfuel : l.rest.length < fuel) (h : skipTrivia fuel l = (.ok r, l'))
    (hcur : l.cur.any (·.kind.isRestricted) → last.any (·.isRestricted)) :
    (r = none → ∃ ps, Passed last l l' ps ∧ spans ps = [] ∧ l'.rest = []) ∧
      ∀ t, r = some t → ∃ ps n, Reached last l l' ps ∧ spans ps = [(t, n)] ∧
        (l'.cur.any (·.kind.isRestricted) → t.kind.isRestricted) := by
  induction fuel generalizing l with
  | zero => cases hfuel
  | succ fuel ih =>
    obtain ⟨rfl, hraw⟩ | ⟨t, l₁, hraw, hnext⟩ := skipTrivia_ok h
    · exact ⟨fun _ => raw_laid_end hraw last, nofun⟩
    · obtain ⟨ps, p, hreached, hspans, hfor, hcur₁⟩ := raw_laid hraw hcur
      have hshort := (raw_read hraw).shorter rfl
      rcases hnext with ⟨ht, h⟩ | ⟨ht, rfl, rfl⟩
      · have hnone : spans (ps ++ [p]) = [] := by
          rw [spans_append, hspans, spans, filterMap_cons_none (spans_of_isFor hfor ht)]
          rfl
        have hafter : afterAll last (ps ++ [p]) = last := by
          rw [afterAll_eq, hnone]
          rfl
        obtain ⟨hnext, hfound⟩ := ih (l := l₁.countBreaks t) (Nat.lt_of_lt_of_le hshort (Nat.le_of_lt_succ hfuel)) h
          fun hany => by
            have hword := hcur₁ hany
            rw [isRestricted_of_isTrivia ht] at hword
            cases hword
        have hcount : Reached last l (l₁.countBreaks t) (ps ++ [p]) :=
          ⟨⟨hreached.text, hreached.illegal, hreached.laid⟩, hreached.pos⟩
        refine ⟨fun hr => ?_, fun u hr => ?_⟩
        · obtain ⟨qs, hpassed, hqs, hend⟩ := hnext hr
          refine ⟨ps ++ [p] ++ qs, hcount.then_passed (hafter.symm ▸ hpassed), ?_, hend⟩
          rw [spans_append, hnone, hqs]
          rfl
        · obtain ⟨qs, n, hpassed, hqs, hlast⟩ := hfound u hr
          refine ⟨ps ++ [p] ++ qs, n, hcount.trans (hafter.symm ▸ hpassed), ?_, hlast⟩
          rw [spans_append, hnone, hqs]
          rfl
      · unfold IsFor at hfor
        rw [ht] at hfor
        obtain ⟨w, rfl⟩ := hfor
        refine ⟨nofun, fun u hu => ?_⟩
        cases hu
        refine ⟨ps ++ [.token (l₁.handOut t).1 w], w.length, hreached.handOut, ?_, restricted_of_handOut hcur₁⟩
        rw [spans_append, hspans]
        rfl

end Lexer

/-! ## The text as a whole -/

/-- The characters of a text from a position on. -/
def slice (s : List Char) (i n : Nat) : List Char := (s.drop i).take n

namespace Stretch

theorem textOf_cons (p : Stretch) (ps : List Stretch) : textOf (p :: ps) = p.chars ++ textOf ps := flatMap_cons

theorem slice_textOf (ps : List Stretch) (p : Stretch) (qs : List Stretch) :
    slice (textOf (ps ++ p :: qs)) (textOf ps).length p.chars.length = p.chars := by
  rw [slice, textOf_append, drop_left, textOf_cons, take_left]

theorem exists_of_mem_spans {s : Token × Nat} (h : s ∈ spans ps) :
    ∃ as w bs, ps = as ++ .token s.1 w :: bs ∧ s.2 = w.length := by
  obtain ⟨p, hp, hs⟩ := mem_filterMap.1 h
  obtain ⟨as, bs, rfl⟩ := append_of_mem hp
  cases p with
  | token t w =>
    cases hs
    exact ⟨as, w, bs, rfl, rfl⟩
  | _ => cases hs

end Stretch

namespace Laid

variable {pos : Nat}

/-- The tokens of stretches lie within them. -/
theorem span_bounds (h : Laid last pos ps) {s : Token × Nat} (hs : s ∈ spans ps) :
    pos ≤ s.1.pos ∧ s.1.pos + s.2 ≤ pos + (textOf ps).length := by
  obtain ⟨as, w, bs, rfl, hlen⟩ := exists_of_mem_spans hs
  have hpos : s.1.pos = pos + (textOf as).length := h.fits.1
  have htext : (Stretch.token s.1 w).chars = w := rfl
  rw [textOf_append, textOf_cons, htext, length_append, length_append]
  omega

end Laid

/-- The text of a token is its lexeme, with the lines of a string joined; or it is a semicolon for the line break
after a word that a line break ends, which is the token before it. -/
def Token.Spells (text : List Char) (ts : List Token) (t : Token) (n : Nat) : Prop :=
  t.text.toList = (if t.kind = .string then joinLines (slice text t.pos n) else slice text t.pos n) ∨
    t.kind = .semi ∧ t.text = ";" ∧ slice text t.pos n = ['\n'] ∧
      ∃ us u vs, ts = us ++ u :: t :: vs ∧ u.kind.isRestricted = true

/-- A token of stretches has the text that stands in its place. -/
theorem Laid.spells (h : Laid none 0 ps) {s : Token × Nat} (hs : s ∈ spans ps) :
    0 < s.2 ∧ s.1.kind.isTrivia = false ∧ s.1.Spells (textOf ps) ((spans ps).map Prod.fst) s.2 := by
  obtain ⟨as, w, bs, rfl, hlen⟩ := exists_of_mem_spans hs
  obtain ⟨hpos, hw, hsolid, hvalue⟩ := h.fits
  have hslice : slice (textOf (as ++ .token s.1 w :: bs)) s.1.pos s.2 = w := by
    rw [hpos, Nat.zero_add, hlen]
    exact slice_textOf as (.token s.1 w) bs
  refine ⟨hlen ▸ length_pos_of_ne_nil hw, hsolid, ?_⟩
  unfold Token.Spells
  rw [hslice]
  rcases hvalue with hvalue | ⟨hkind, htext, hbreak, hlast⟩
  · exact .inl hvalue
  · refine .inr ⟨hkind, htext, hbreak, ?_⟩
    rw [afterAll_eq, Option.or_none, Option.any_map] at hlast
    obtain ⟨u, hu, hrestricted⟩ := (any_eq_true _ _).1 hlast
    obtain ⟨ss, hss⟩ := getLast?_eq_some_iff.1 hu
    refine ⟨ss.map Prod.fst, u.1, (spans bs).map Prod.fst, ?_, hrestricted⟩
    have hcons : spans (.token s.1 w :: bs) = (s.1, w.length) :: spans bs := rfl
    rw [spans_append, hss, hcons, append_assoc, map_append]
    rfl

end JsMinify
