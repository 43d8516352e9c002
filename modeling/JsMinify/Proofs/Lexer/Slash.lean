import JsMinify.Proofs.Lexer.Found
import JsMinify.Proofs.Lexer.Streams

/-!
# Slashes

A slash between two tokens divides, or opens a regular expression. The lexer decides by the raw token that it
read last. Line breaks and comments are raw tokens too, so behind one of them a slash opens a regular expression,
whatever token of the program stands before it: `a` on one line and `/b/g` on the next are a name and a regular
expression. `slash_reading_kept_iff` says exactly when the line breaks and comments before a slash do not matter.
-/

namespace JsMinify

open List Lexeme TokenKind Lexer

/-- What a slash is taken for. -/
inductive SlashReading where
  | division
  | regex
  deriving DecidableEq, Repr

/-- What a slash was taken for where reading gave this result. A regular expression that is not well formed was
taken for one. -/
def SlashReading.of? : Except LexError (Option Token) → Option SlashReading
  | .ok (some t) =>
    if t.kind = .divide ∨ t.kind = .divideAssign then some .division
    else if t.kind = .regex then some .regex
    else none
  | .error (.badRegex _ _) => some .regex
  | _ => none

variable {k : TokenKind} {n : Nat} {l : Lexer}

namespace Lexeme

theorem punctuators_slash : ∀ p ∈ punctuators, p.1.toList.head? = some '/' → p.2 = .divide ∨ p.2 = .divideAssign := by decide

theorem rule?_slash_kind {r : List Char} (h : rule? ('/' :: r) = some (k, n))
    (hk : k.isTrivia = false) : k = .divide ∨ k = .divideAssign := by
  obtain ⟨p, hp, rfl, -, hhead⟩ := punctuator_of_slash h hk
  exact punctuators_slash p hp hhead

end Lexeme

namespace Lexer

/-- What the lexer takes a slash for that stands before its next token. -/
def slash? (l : Lexer) : Option SlashReading := SlashReading.of? l.token.1

/-! ## What stands before a slash -/

/-- Some of the characters are no blanks. -/
def strays (g : List Char) : Bool := g.any (!isBlank ·)

/-- The lexer passes over line breaks and comments, and gets to another state. -/
inductive Skips : Lexer → List Token → Lexer → Prop where
  | nil {l : Lexer} : Skips l [] l
  | cons {l l' m : Lexer} {t : Token} {us : List Token} (next : l.raw = (.ok (some t), l'))
      (trivia : t.kind.isTrivia = true) (more : Skips (l'.countBreaks t) us m) : Skips l (t :: us) m

theorem scanFrom_idle {g s : List Char} (hg : Idle g s) (hl : l.mode = .ordinary) (pos : Nat) :
    ∃ rs, l.scanFrom (g ++ s) pos = { l with illegal := l.illegal ++ rs }.scanFrom s (pos + g.length) := by
  induction g generalizing l pos with
  | nil => exact ⟨[], by simp⟩
  | cons c g ih =>
    obtain ⟨hc, hg⟩ := hg
    have hpos : pos + (c :: g).length = pos + 1 + g.length := by
      rw [length_cons]
      omega
    rw [cons_append, scanFrom, hpos]
    split
    · exact ih hg hl (pos + 1)
    · next hblank =>
      have hrule : l.rule? (c :: (g ++ s)) = none := by
        rw [rule?, hl]
        exact hc.resolve_left hblank
      rw [hrule]
      obtain ⟨rs, hrs⟩ := ih (l := { l with illegal := l.illegal ++ [⟨c, l.line, pos, l.prev⟩] }) hg hl (pos + 1)
      refine ⟨⟨c, l.line, pos, l.prev⟩ :: rs, ?_⟩
      rw [append_assoc, singleton_append] at hrs
      simpa only [hl] using hrs

variable {t : Token}

theorem raw_trivia {l' : Lexer} (h : l.raw = (.ok (some t), l')) (ht : t.kind.isTrivia) : l'.cur = some t := by
  refine (raw_remembers h).resolve_right fun hsemi => ?_
  rw [hsemi.1] at ht
  cases ht

section

variable {m : Lexer} {us : List Token}

theorem Skips.plain (h : Skips l us m) (hl : l.Plain) : m.Plain := by
  induction h with
  | nil => exact hl
  | cons next _ _ ih =>
    obtain ⟨u, v, n, found, -⟩ := raw_found hl next
    exact ih ⟨found.plain.loaded, found.plain.mode, found.plain.pushed⟩

theorem Skips.length_le (h : Skips l us m) : us.length + m.rest.length ≤ l.rest.length := by
  induction h with
  | nil => simp
  | @cons l l' m t us next trivia more ih =>
    have hshort := (raw_read next).shorter rfl
    have hrest : (l'.countBreaks t).rest = l'.rest := rfl
    rw [hrest] at ih
    rw [length_cons]
    omega

theorem Skips.skipTrivia (h : Skips l us m) (fuel : Nat) : skipTrivia (us.length + fuel) l = skipTrivia fuel m := by
  induction h with
  | nil => rw [length_nil, Nat.zero_add]
  | @cons l l' m t us next trivia more ih =>
    rw [length_cons, Nat.add_right_comm, skipTrivia_succ, next]
    simp only [trivia, if_true]
    exact ih

/-- The raw token read last is the last line break or comment that was passed over. -/
theorem Skips.cur (h : Skips l us m) : m.cur = us.getLast?.or l.cur := by
  induction h with
  | nil => rfl
  | @cons l l' m t us next trivia more ih =>
    have hcur := raw_trivia next trivia
    change l'.cur = some t at hcur
    have hcount : (l'.countBreaks t).cur = l'.cur := rfl
    rw [ih, hcount, hcur]
    cases us with
    | nil => rfl
    | cons u us =>
      rw [getLast?_cons_cons, getLast?_eq_some_getLast (cons_ne_nil u us)]
      rfl

theorem Skips.trivia (h : Skips l us m) : ∀ u ∈ us, u.kind.isTrivia := by
  induction h with
  | nil => simp
  | cons _ trivia _ ih => exact forall_mem_cons.2 ⟨trivia, ih⟩

end

theorem endsOperand_of_isTrivia (h : k.isTrivia) : k.endsOperand = false := by
  cases k <;> first | rfl | cases h

/-- Behind a line break or a comment no slash divides. -/
theorem Skips.slashDivides {m : Lexer} {us : List Token} (h : Skips l us m) :
    m.slashDivides = (us.isEmpty && l.slashDivides) := by
  rw [Lexer.slashDivides, h.cur]
  rcases eq_nil_or_concat us with rfl | ⟨us, u, rfl⟩
  · rfl
  · rw [concat_eq_append, getLast?_concat]
    have hu := endsOperand_of_isTrivia (h.trivia u (by simp))
    simp [hu]

/-! ## The decision -/

/-- A slash behind a character that is no blank opens no regular expression. -/
theorem opensSlash_idle {g v : List Char} (hg : Idle g v) (hv : v.dropWhile isBlank = v) :
    opensSlash ((g ++ v).dropWhile isBlank) = (opensSlash v && !strays g) := by
  induction g with
  | nil =>
    rw [nil_append, hv]
    exact (Bool.and_true _).symm
  | cons c g ih =>
    obtain ⟨hc, hg⟩ := hg
    cases hblank : isBlank c with
    | true =>
      rw [cons_append, dropWhile_cons_of_pos hblank, ih hg, strays, strays, any_cons, hblank]
      rfl
    | false =>
      have hslash : (c :: (g ++ v)).head? ≠ some '/' := by
        rintro ⟨⟩
        have hsome := rule?_slash (g ++ v)
        rw [hc.resolve_left (by simp [hblank])] at hsome
        cases hsome
      rw [cons_append, dropWhile_cons_of_neg (by simp [hblank]), opensSlash_eq_false hslash, strays, any_cons, hblank]
      simp

/-- A lexeme is read. A semicolon stands for a line break behind a restricted word. -/
def ReadsLexeme (l : Lexer) (k : TokenKind) (rest : List Char) : Prop :=
  ∃ t l', t.kind = k ∧ l'.rest = rest ∧ l'.cur = some t ∧ l'.Plain ∧
    l.raw = if k = .lineEnd && l.cur.any (·.kind.isRestricted) then
      (.ok (some (l'.makeSemi (some t)).1), (l'.makeSemi (some t)).2) else (.ok (some t), l')

/-- A lexeme behind characters that are passed over is read. -/
theorem raw_lexeme (hl : l.Plain) {g v : List Char} (hrest : l.rest = g ++ v) (hg : Idle g v)
    (hrule : Lexeme.rule? v = some (k, n)) (hopen : l.opensRegex = false) : l.ReadsLexeme k (v.drop n) := by
  obtain ⟨c, r, rfl, hc⟩ := (form_of_rule? hrule).head
  obtain ⟨rs, hidle⟩ := scanFrom_idle (l := { l with prev := l.cur }) hg hl.mode l.pos
  obtain ⟨line, -, htake⟩ := take_eq { l with prev := l.cur, illegal := l.illegal ++ rs } (c :: r) (l.pos + g.length) k n
  have hlexeme := scanFrom_lexeme (l := { l with prev := l.cur, illegal := l.illegal ++ rs }) (l.pos + g.length) hc
    (by rw [rule?, hl.mode]; exact hrule)
  rw [htake, ← hidle, ← hrest] at hlexeme
  unfold ReadsLexeme raw advance scan
  rw [hopen, hlexeme]
  exact ⟨_, { l with prev := l.cur, rest := (c :: r).drop n, pos := _, line := line, illegal := _, cur := some _ },
    rfl, rfl, rfl, ⟨hl.loaded, hl.mode, hl.pushed⟩, rfl⟩

/-- In the middle of a regular expression nothing else is read. -/
theorem readRegex_reading {r : List Char} (h : l.rest.dropWhile isBlank = '/' :: r) :
    SlashReading.of? l.readRegex.1 = some .regex := by
  unfold readRegex scan
  rw [scanFrom_dropWhile]
  simp only [h]
  rw [scanFrom, if_neg (by decide)]
  simp only [rule?]
  cases hr : Lexeme.regex? ('/' :: r) with
  | none => rfl
  | some n => rfl

section

variable (hl : l.Plain) {g r : List Char} (hrest : l.rest = g ++ '/' :: r) (hg : Idle g ('/' :: r))
  (hr : ∀ k n, Lexeme.rule? ('/' :: r) = some (k, n) → k.isTrivia = false)

include hl hrest hg hr

/-- What the next raw token takes a slash for. -/
theorem raw_reading : SlashReading.of? l.raw.1 =
    some (if opensSlash ('/' :: r) && !strays g && !l.slashDivides then .regex else .division) := by
  have hopen : l.opensRegex = (opensSlash ('/' :: r) && !strays g && !l.slashDivides) := by
    rw [opensRegex_eq rfl, hrest, opensSlash_idle hg (dropWhile_cons_of_neg (by decide))]
  rw [← hopen]
  cases hregex : l.opensRegex with
  | true =>
    rw [hregex] at hopen
    simp only [Bool.true_eq, Bool.and_eq_true, Bool.not_eq_true', strays, any_eq_false] at hopen
    rw [raw, hregex]
    refine readRegex_reading (r := r) ?_
    rw [hrest]
    exact dropWhile_blanks (fun c hc => by simpa using hopen.1.2 c hc) ⟨'/', r, rfl, by decide⟩
  | false =>
    obtain ⟨⟨k, n⟩, hrule⟩ := Option.isSome_iff_exists.1 (rule?_slash r)
    have hkind := rule?_slash_kind hrule (hr k n hrule)
    obtain ⟨t, l', rfl, -, -, -, hraw⟩ := raw_lexeme hl hrest hg hrule hregex
    have hend : t.kind ≠ .lineEnd := by rcases hkind with hk | hk <;> simp [hk]
    rw [hraw, if_neg (by simp [hend])]
    exact if_pos hkind

theorem skipTrivia_reading (fuel : Nat) : SlashReading.of? (skipTrivia (fuel + 1) l).1 =
    some (if opensSlash ('/' :: r) && !strays g && !l.slashDivides then .regex else .division) := by
  rw [← raw_reading hl hrest hg hr, skipTrivia_succ]
  have hread := raw_reading hl hrest hg hr
  rcases hraw : l.raw with ⟨e | _ | t, l'⟩
  · rfl
  · rw [hraw] at hread
    cases hread
  · have hsolid : t.kind.isTrivia = false := by
      rw [hraw] at hread
      simp only [SlashReading.of?] at hread
      split at hread
      · next hk => rcases hk with hk | hk <;> rw [hk] <;> rfl
      · split at hread
        · next hk => rw [hk]; rfl
        · cases hread
    obtain ⟨cur, he⟩ := handOut_eq l' t
    simp only [hsolid, handOut?, he]
    rfl

end

/-! ## The token before -/

section

variable {p : TokenKind → Bool} (hp : p .lineEnd = p .semi)

include hp

/-- A lexer remembers the token that it handed out, or the line break that a semicolon stands for. -/
theorem handOut_cur_any {l' : Lexer} (h : l.raw = (.ok (some t), l')) :
    (l'.handOut t).2.cur.any (fun u => p u.kind) = p t.kind := by
  rcases raw_remembers h with hcur | ⟨hsemi, u, hcur, hend⟩
  · obtain ⟨t', he, hkind, -⟩ := handOut_cur hcur
    rw [he, ← hkind]
    rfl
  · have hne : l'.cur ≠ some t := by
      rintro heq
      cases hcur.symm.trans heq
      rw [hsemi] at hend
      cases hend
    have hcur' : (l'.handOut t).2.cur = some u := by
      simp only [handOut, if_neg hne]
      exact hcur
    rw [hcur', Option.any_some, hend, hsemi, hp]

theorem skipTrivia_cur_any {fuel : Nat} {l' : Lexer}
    (h : skipTrivia fuel l = (.ok (some t), l')) : l'.cur.any (fun u => p u.kind) = p t.kind := by
  induction fuel generalizing l with
  | zero => cases (Prod.mk.inj h).1
  | succ fuel ih =>
    obtain ⟨t₁, l₁, hraw, ⟨-, hlater⟩ | ⟨-, hout⟩⟩ := skipTrivia_some h
    · exact ih hlater
    · cases hout
      exact handOut_cur_any hp hraw

end

section

variable {text : String} {ts : List Token} {m : Lexer}

theorem Reads.plain_of (h : Reads l ts m) (hl : l.Plain) : m.Plain := by
  induction h with
  | nil => exact hl
  | snoc _ next ih =>
    obtain ⟨u, v, n, found⟩ := token_found ih next
    exact found.plain

theorem Reads.plain (h : Reads (({} : Lexer).input text) ts m) : m.Plain := h.plain_of ⟨rfl, rfl, rfl⟩

/-- Right behind a token, the kind of the token is known. -/
theorem Reads.cur_any (h : Reads (({} : Lexer).input text) ts m) {p : TokenKind → Bool} (hp : p .lineEnd = p .semi) :
    m.cur.any (fun u => p u.kind) = ts.getLast?.any fun u => p u.kind := by
  cases h with
  | nil => rfl
  | snoc before next =>
    rw [token_eq_skipTrivia before.plain] at next
    rw [getLast?_concat, skipTrivia_cur_any hp next]
    rfl

/-- Right behind a token, a slash divides if the token ends an operand. -/
theorem Reads.slashDivides (h : Reads (({} : Lexer).input text) ts m) :
    m.slashDivides = ts.getLast?.any (·.kind.endsOperand) := h.cur_any rfl

/-- A slash is met behind the tokens `ts` of a text, the line breaks and comments `us`, and the characters `g`
that are passed over. What stands between it and the last token is replaced by `b`: blanks, with illegal
characters among them if there were some. The lexer takes the slash for the same as before exactly if there
was no line break and no comment, or the slash can only be a division, or an illegal character stands between the
last of them and the slash, or the last token does not end an operand and no illegal character was met. -/
theorem slash_reading_kept_iff {us : List Token} {m₁ : Lexer} {g b r : List Char}
    (read : Reads (({} : Lexer).input text) ts m) (skipped : Skips m us m₁)
    (rest : m₁.rest = g ++ '/' :: r) (idle : Idle g ('/' :: r))
    (slash : ∀ k n, Lexeme.rule? ('/' :: r) = some (k, n) → k.isTrivia = false)
    (blanks : Idle b ('/' :: r)) (illegal : strays b = (strays g || m₁.illegal ≠ m.illegal)) :
    ∃ d d', m.slash? = some d ∧ { m with rest := b ++ '/' :: r }.slash? = some d' ∧
      (d = d' ↔ us = [] ∨ opensSlash ('/' :: r) = false ∨ strays g = true ∨
        ts.getLast?.any (·.kind.endsOperand) = false ∧ m₁.illegal = m.illegal) := by
  have hplain := read.plain
  have hlast := read.slashDivides
  have hskip := skipped.slashDivides
  have hbefore : m.slash? = some (if opensSlash ('/' :: r) && !strays g && !m₁.slashDivides then .regex else .division) := by
    have hlen := skipped.length_le
    obtain ⟨k, hk⟩ : ∃ k, m.rest.length + 1 = us.length + (k + 1) := ⟨m.rest.length - us.length, by omega⟩
    rw [slash?, token_eq_skipTrivia hplain, hk, skipped.skipTrivia]
    exact skipTrivia_reading (skipped.plain hplain) rest idle slash k
  have hafter : { m with rest := b ++ '/' :: r }.slash? =
      some (if opensSlash ('/' :: r) && !strays b && !m.slashDivides then .regex else .division) := by
    have hplain' : { m with rest := b ++ '/' :: r }.Plain := ⟨hplain.loaded, hplain.mode, hplain.pushed⟩
    rw [slash?, token_eq_skipTrivia hplain']
    exact skipTrivia_reading hplain' rfl blanks slash _
  refine ⟨_, _, hbefore, hafter, ?_⟩
  rw [skipped.slashDivides, illegal, read.slashDivides]
  cases skipped with
  | nil => cases strays g <;> simp
  | cons =>
    generalize ts.getLast?.any (·.kind.endsOperand) = ends
    by_cases hmet : m₁.illegal = m.illegal <;> cases opensSlash ('/' :: r) <;> cases strays g <;> cases ends <;> simp [hmet]

/-- Behind `a` a slash divides; on the next line it opens a regular expression. -/
theorem slash_reading_lost_at_line_break : ∃ m m₁ : Lexer, Reads (({} : Lexer).input "a\n/b/g") [⟨.identifier, "a", 1, 0⟩] m ∧
      Skips m [⟨.lineEnd, "\n", 1, 1⟩] m₁ ∧ m₁.rest = "/b/g".toList ∧
      m.slash? ≠ { m with rest := " /b/g".toList }.slash? := by
  have read : Reads (({} : Lexer).input "a\n/b/g") [⟨.identifier, "a", 1, 0⟩]
      (({} : Lexer).input "a\n/b/g").token.2 := Reads.nil.snoc (by decide)
  have skipped : Skips (({} : Lexer).input "a\n/b/g").token.2 [⟨.lineEnd, "\n", 1, 1⟩]
      ((({} : Lexer).input "a\n/b/g").token.2.raw.2.countBreaks ⟨.lineEnd, "\n", 1, 1⟩) :=
    .cons (by decide) rfl .nil
  have slash : ∀ k n, Lexeme.rule? ('/' :: "b/g".toList) = some (k, n) → k.isTrivia = false := by
    have hrule : Lexeme.rule? ('/' :: "b/g".toList) = some (.divide, 1) := by decide
    intro k n h
    obtain ⟨rfl, -⟩ := Prod.mk.inj (Option.some.inj (hrule.symm.trans h))
    rfl
  refine ⟨_, _, read, skipped, by decide, fun heq => ?_⟩
  obtain ⟨d, d', hd, hd', hiff⟩ := slash_reading_kept_iff (g := []) (b := [' ']) (r := "b/g".toList) read skipped
    (by decide) trivial slash ⟨.inl rfl, trivial⟩ (by decide)
  have hsame : d = d' := Option.some.inj (hd.symm.trans (heq.trans hd'))
  exact absurd (hiff.1 hsame) (by decide)

end

end Lexer

end JsMinify
