import JsMinify.Proofs.Lexer.Slash
import JsMinify.Parser

/-!
# Line breaks between tokens

A line break between two tokens can end a statement in two ways. Behind `break`, `continue`, `return` and `throw`
the lexer hands out a semicolon for it, and before a token that the grammar rejects a semicolon is made up. Both
look at one raw token only, and comments are raw tokens: the first needs a line break right behind the word, the
second one right before the rejected token. `semicolon_at_gap_iff` says what both do for any line breaks and
comments between two tokens, next to what they do for a single line break.
-/

namespace JsMinify

variable {l : Lexer}

namespace Lexer

open Lexeme TokenKind Option List

variable {s b : List Char} {us : List (TokenKind × List Char)} {n : Nat} {k : TokenKind}

/-- A text begins with blanks and with the line breaks and comments in a list, and goes on with the text `s`. -/
inductive Gap : List Char → List (TokenKind × List Char) → List Char → Prop where
  | nil {b s : List Char} (blanks : ∀ c ∈ b, isBlank c = true) : Gap (b ++ s) [] s
  | cons {b w r s : List Char} {k : TokenKind} {us : List (TokenKind × List Char)} (blanks : ∀ c ∈ b, isBlank c = true)
      (lexeme : Lexeme.rule? (w ++ r) = some (k, w.length)) (trivia : k.isTrivia = true) (more : Gap r us s) :
      Gap (b ++ (w ++ r)) ((k, w) :: us) s

/-- The next token is a semicolon that stands for a line break. -/
def endsAtBreak (l : Lexer) : Bool :=
  match l.token with
  | (.ok (some t), l') => t.kind = .semi && l'.cur.any (·.kind = .lineEnd)
  | _ => false

/-- The next token that is written in the text: a semicolon that stands for a line break is passed over. -/
def written (l : Lexer) : LexResult (Option Token) := if l.endsAtBreak then l.token.2.token else l.token

/-! ## One line break or comment -/

/-- A line break or a comment does not begin with a slash that opens no comment. -/
theorem opensSlash_of_trivia (h : Lexeme.rule? s = some (k, n)) (hk : k.isTrivia) : opensSlash s = false := by
  rcases (form_of_rule? h).trivia hk with ⟨-, hs⟩ | ⟨d, r, rfl, rfl | rfl⟩
  · obtain ⟨r, rfl⟩ := head?_eq_some_iff.1 hs
    rfl
  · rfl
  · rfl

theorem idle_of_blanks (hb : ∀ c ∈ b, isBlank c) (s : List Char) : Idle b s := by
  induction b with
  | nil => trivial
  | cons c b ih => exact ⟨.inl (hb c (by simp)), ih fun d hd => hb d (by simp [hd])⟩

/-- A line break or a comment is read. -/
theorem raw_trivial (hl : l.Plain) {g v : List Char} (hrest : l.rest = g ++ v) (hg : Idle g v)
    (hrule : Lexeme.rule? v = some (k, n)) (hk : k.isTrivia) : l.ReadsLexeme k (v.drop n) := by
  refine raw_lexeme hl hrest hg hrule ?_
  have hhead := dropWhile_blanks (b := []) nofun (form_of_rule? hrule).head
  rw [opensRegex_eq rfl, hrest, opensSlash_idle hg hhead, opensSlash_of_trivia hrule hk]
  rfl

/-! ## Gaps -/

/-- The next token behind a gap, where no semicolon stands for its first line break. -/
theorem Gap.skips {x : List Char} (h : Gap x us s) (hl : l.Plain) (hx : l.rest = x)
    (hfirst : (l.cur.any (·.kind.isRestricted) && us.head?.any (·.1 = .lineEnd)) = false) :
    ∃ ts m b, Skips l ts m ∧ ts.map (·.kind) = us.map (·.1) ∧ m.rest = b ++ s ∧ ∀ c ∈ b, isBlank c := by
  induction h generalizing l with
  | @nil b s blanks => exact ⟨[], l, b, .nil, rfl, hx, blanks⟩
  | @cons b w r s k us blanks lexeme trivia more ih =>
    obtain ⟨t, l', hkind, hrest, hcur, hplain, hraw⟩ := raw_trivial hl hx (idle_of_blanks blanks _) lexeme trivia
    rw [drop_left] at hrest
    have hno : (decide (k = .lineEnd) && l.cur.any (·.kind.isRestricted)) = false := by
      rw [Bool.and_comm]
      exact hfirst
    rw [hno] at hraw
    have hfree : (l'.countBreaks t).cur.any (·.kind.isRestricted) = false := by
      have hcount : (l'.countBreaks t).cur = some t := hcur
      rw [hcount, any_some, hkind]
      cases k <;> first | rfl | cases trivia
    obtain ⟨ts, m, b', hskips, hkinds, hm, hb'⟩ := ih (l := l'.countBreaks t)
      ⟨hplain.loaded, hplain.mode, hplain.pushed⟩ hrest (by rw [hfree]; rfl)
    exact ⟨t :: ts, m, b', .cons hraw (by rw [hkind]; exact trivia) hskips, by simp [hkind, hkinds], hm, hb'⟩

/-- A token behind a gap is handed out, and the last line break or comment is remembered as the raw token before. -/
theorem Gap.token (h : Gap l.rest us s) (hl : l.Plain)
    (hfirst : (l.cur.any (·.kind.isRestricted) && us.head?.any (·.1 = .lineEnd)) = false)
    (hn : next? (us.isEmpty && l.slashDivides) s = some (k, n)) (hk : k.isTrivia = false) :
    ∃ t l', l.token = (.ok (some t), l') ∧ t.kind = k ∧ t.text.toList = joined k (s.take n) ∧ l'.rest = s.drop n ∧
      l'.cur.map (·.kind) = some k ∧ l'.prev.map (·.kind) = (us.getLast?.map (·.1)).or (l.cur.map (·.kind)) ∧
      l'.Plain := by
  obtain ⟨ts, m, b, hskips, hkinds, hrest, hblank⟩ := h.skips hl rfl hfirst
  have hdivides : m.slashDivides = (us.isEmpty && l.slashDivides) := by
    have hempty : ts.isEmpty = us.isEmpty := by
      cases ts <;> cases us <;> first | rfl | cases hkinds
    rw [hskips.slashDivides, hempty]
  have hlen := hskips.length_le
  obtain ⟨fuel, hfuel⟩ : ∃ fuel, l.rest.length + 1 = ts.length + (fuel + 1) := ⟨l.rest.length - ts.length, by omega⟩
  obtain ⟨t, l', htoken, hkind, htext, hrest', hcur, hprev, hplain⟩ :=
    skipTrivia_exact fuel (hskips.plain hl) hrest hblank (hdivides ▸ hn) hk
  refine ⟨t, l', ?_, hkind, htext, hrest', hcur, ?_, hplain⟩
  · rw [token_eq_skipTrivia hl, hfuel, hskips.skipTrivia, htoken]
  · have hlast : ts.getLast?.map (·.kind) = us.getLast?.map (·.1) := by
      rw [← getLast?_map, hkinds, getLast?_map]
    rw [hprev, hskips.cur, ← hlast]
    cases ts.getLast? <;> rfl

/-- Behind a restricted word a semicolon is handed out for a line break. -/
theorem token_at_break (hl : l.Plain) {w r : List Char} (hrest : l.rest = b ++ (w ++ r))
    (hb : ∀ c ∈ b, isBlank c) (hrule : Lexeme.rule? (w ++ r) = some (.lineEnd, w.length))
    (hcur : l.cur.any (·.kind.isRestricted)) :
    ∃ t l', l.token = (.ok (some t), l') ∧ t.kind = .semi ∧ l'.rest = r ∧ l'.cur.map (·.kind) = some .lineEnd ∧ l'.Plain := by
  obtain ⟨t, l₁, hkind, hrest₁, hcur₁, hplain, hraw⟩ := raw_trivial hl hrest (idle_of_blanks hb _) hrule rfl
  rw [drop_left] at hrest₁
  rw [if_pos (by rw [hcur]; rfl)] at hraw
  have hother : ¬(l₁.countBreaks t).cur = some ⟨.semi, ";", t.line, t.pos⟩ := by
    change ¬l₁.cur = some _
    rw [hcur₁]
    rintro heq
    rw [some.inj heq] at hkind
    cases hkind
  obtain ⟨cur, hout⟩ := handOut_eq (l₁.countBreaks t) ⟨.semi, ";", t.line, t.pos⟩
  have hkept : ((l₁.countBreaks t).handOut ⟨.semi, ";", t.line, t.pos⟩).2.cur = some t := by
    simp only [handOut, if_neg hother]
    exact hcur₁
  rw [hout] at hkept
  have htoken : l.token = (l₁.countBreaks t).handOut? (some ⟨.semi, ";", t.line, t.pos⟩) := by
    rw [token_eq_skipTrivia hl, skipTrivia_succ, hraw]
    rfl
  rw [handOut?, hout] at htoken
  exact ⟨_, _, htoken, rfl, hrest₁, by rw [hkept, map_some, hkind], ⟨hplain.loaded, hplain.mode, hplain.pushed⟩⟩

/-- What both rules see of a gap: the first one its first line break or comment, the second one its last. -/
theorem Gap.semicolons (h : Gap l.rest us s) (hl : l.Plain) (hne : us ≠ [])
    (hn : next? false s = some (k, n)) (hk : k.isTrivia = false) :
    l.endsAtBreak = (l.cur.any (·.kind.isRestricted) && us.head?.any (·.1 = .lineEnd)) ∧
      ∃ t l', l.written = (.ok (some t), l') ∧ t.kind = k ∧ t.text.toList = joined k (s.take n) ∧
        l'.prev.any (·.kind = .lineEnd) = us.getLast?.any (·.1 = .lineEnd) := by
  have hany : ∀ (o : Option Token), o.any (·.kind = .lineEnd) = (o.map (·.kind)).any (· = .lineEnd) := fun o => by
    cases o <;> rfl
  have hlast : ∀ o : Option TokenKind, ((us.getLast?.map (·.1)).or o).any (· = .lineEnd) = us.getLast?.any (·.1 = .lineEnd) := by
    intro o
    obtain ⟨u, hu⟩ := isSome_iff_exists.1 (getLast?_isSome.2 hne)
    rw [hu]
    rfl
  cases hfirst : l.cur.any (·.kind.isRestricted) && us.head?.any (·.1 = .lineEnd) with
  | false =>
    obtain ⟨t, l', htoken, hkind, htext, -, hcur, hprev, -⟩ := h.token hl hfirst (by rwa [isEmpty_eq_false_iff.2 hne]) hk
    have hends : l.endsAtBreak = false := by
      have hsolid : k ≠ .lineEnd := by
        rintro rfl
        cases hk
      rw [endsAtBreak, htoken]
      simp [hany, hcur, hsolid]
    refine ⟨hends, t, l', ?_, hkind, htext, by rw [hany, hprev, hlast]⟩
    rw [written, hends]
    exact htoken
  | true =>
    rw [Bool.and_eq_true] at hfirst
    generalize hx : l.rest = x at h
    cases h with
    | nil => exact absurd rfl hne
    | @cons b w r s k' us blanks lexeme trivia more =>
      obtain rfl : k' = .lineEnd := by simpa using hfirst.2
      obtain ⟨semi, l₁, htoken, hsemi, hrest, hcur, hplain⟩ := token_at_break hl hx blanks lexeme hfirst.1
      have hfree : l₁.cur.any (·.kind.isRestricted) = false ∧ l₁.slashDivides = false := by
        obtain ⟨u, hu, hkind⟩ := map_eq_some_iff.1 hcur
        rw [slashDivides, hu, any_some, any_some, hkind]
        exact ⟨rfl, rfl⟩
      obtain ⟨t, l', hnext, hkind, htext, -, -, hprev, -⟩ := Gap.token (hrest ▸ more) hplain (by rw [hfree.1]; rfl)
        (by rwa [hfree.2, Bool.and_false]) hk
      have hends : l.endsAtBreak := by
        rw [endsAtBreak, htoken]
        simp [hsemi, hany, hcur]
      refine ⟨hends, t, l', ?_, hkind, htext, ?_⟩
      · rw [written, hends, htoken]
        exact hnext
      · rw [hany, hprev, hcur]
        cases us with
        | nil => rfl
        | cons u us =>
          obtain ⟨v, hv⟩ := isSome_iff_exists.1 (getLast?_isSome.2 (cons_ne_nil u us))
          rw [getLast?_cons_cons, hv]
          rfl

end Lexer

/-! ## Rejected tokens -/

/-- A run has read a token from a lexer and did not put it off before. -/
structure Config.Meets (c : Config) (l : Lexer) (t : Token) : Prop where
  lexer : c.parser.lexer = l
  unseen : c.parser.seen.contains t = false
  written : t.kind ≠ .semi

theorem Config.reject_ne_next (c : Config) (t : Token) (d : Config) : c.reject t ≠ .next d := by
  unfold reject
  simp only
  split <;> nofun

/-- A run goes on behind a token that it rejects exactly if a semicolon may stand before the token. -/
theorem Config.Meets.recovers_iff {c : Config} {t : Token} (h : c.Meets l t) :
    (∃ d, c.recover (some t) = .next d) ↔ t.kind = .rbrace ∨ l.prev.any (·.kind = .lineEnd) := by
  have hrecover : c.recover (some t) = (c.putOff (some t)).getD (c.reject t) := by
    rw [recover, h.unseen]
    simp [h.written]
  have hallowed : c.parser.lexer.semiAllowed (some t) = (decide (t.kind = .rbrace) || l.prev.any (·.kind = .lineEnd)) := by
    rw [h.lexer]
    rfl
  rw [hrecover, putOff, Lexer.autoSemi, hallowed]
  cases hsemi : decide (t.kind = .rbrace) || l.prev.any (·.kind = .lineEnd) with
  | true =>
    exact ⟨fun _ => by simpa using hsemi, fun _ => ⟨_, rfl⟩⟩
  | false =>
    refine ⟨fun ⟨d, hd⟩ => absurd hd (c.reject_ne_next t d), fun hor => ?_⟩
    rw [Bool.or_eq_false_iff, decide_eq_false_iff_not] at hsemi
    rcases hor with hbrace | hbreak
    · exact absurd hbrace hsemi.1
    · rw [hsemi.2] at hbreak
      cases hbreak

namespace Lexer

open Lexeme TokenKind

/-- Between a token and the next one stand the line breaks and comments `us`, with a line break among them. The token
before does or does not end a statement as it would before a single line break exactly if it is not a restricted
word or the first of `us` is a line break. The token behind is put off by a semicolon, as it would be behind a single
line break, exactly if it is a closing brace or the last of `us` is a line break. -/
theorem semicolon_at_gap_iff {text : String} {ts : List Token} {m : Lexer} {us : List (TokenKind × List Char)} {s : List Char}
    {k : TokenKind} {n : Nat} (read : Reads (({} : Lexer).input text) ts m) (gap : Gap m.rest us s)
    (broken : ∃ u ∈ us, '\n' ∈ u.2) (next : next? false s = some (k, n)) (solid : k.isTrivia = false) :
    ∃ t l t' l', m.written = (.ok (some t), l) ∧ { m with rest := '\n' :: s }.written = (.ok (some t'), l') ∧
      t.kind = k ∧ t'.kind = k ∧ t.text = t'.text ∧
      { m with rest := '\n' :: s }.endsAtBreak = ts.getLast?.any (·.kind.isRestricted) ∧
      (m.endsAtBreak = { m with rest := '\n' :: s }.endsAtBreak ↔
        ts.getLast?.any (·.kind.isRestricted) = false ∨ us.head?.any (·.1 = .lineEnd) = true) ∧
      (∀ c : Config, c.Meets l' t' → ∃ d, c.recover (some t') = .next d) ∧
      ∀ c : Config, c.Meets l t →
        ((∃ d, c.recover (some t) = .next d) ↔ k = .rbrace ∨ us.getLast?.any (·.1 = .lineEnd) = true) := by
  have hplain := read.plain
  have hne : us ≠ [] := by
    rintro rfl
    obtain ⟨u, hu, -⟩ := broken
    cases hu
  have hsingle : Gap ('\n' :: s) [(.lineEnd, ['\n'])] s :=
    .cons (b := []) (w := ['\n']) (r := s) nofun (rule?_break s) rfl (.nil (b := []) nofun)
  have hrestricted := read.cur_any (p := TokenKind.isRestricted) rfl
  obtain ⟨hends, t, l, hwritten, hkind, htext, hlast⟩ := gap.semicolons hplain hne next solid
  obtain ⟨hends', t', l', hwritten', hkind', htext', hlast'⟩ :=
    Gap.semicolons (l := { m with rest := '\n' :: s }) hsingle ⟨hplain.loaded, hplain.mode, hplain.pushed⟩
      (List.cons_ne_nil _ _) next solid
  refine ⟨t, l, t', l', hwritten, hwritten', hkind, hkind', String.toList_inj.1 (htext.trans htext'.symm), ?_, ?_, ?_, ?_⟩
  · rw [hends', ← hrestricted]
    exact Bool.and_true _
  · have hbreak : ([(TokenKind.lineEnd, ['\n'])].head?.any fun u => decide (u.1 = .lineEnd)) = true := rfl
    rw [hends, hends', ← hrestricted, hbreak, Bool.and_true]
    generalize us.head?.any (fun u => decide (u.1 = .lineEnd)) = first
    change (m.cur.any (·.kind.isRestricted) && first) = m.cur.any (·.kind.isRestricted) ↔ _
    generalize m.cur.any (·.kind.isRestricted) = restricted
    revert restricted first
    decide
  · intro c hc
    exact hc.recovers_iff.2 (.inr (by rw [hlast']; rfl))
  · intro c hc
    rw [hc.recovers_iff, hkind, hlast]

/-- A line break inside a comment neither ends the statement of `return` nor lets a semicolon stand before `a`. -/
theorem semicolon_lost_in_comment : ∃ m t l, Reads (({} : Lexer).input "return/*\n*/a") [⟨.kwReturn, "return", 1, 0⟩] m ∧
      Gap m.rest [(.blockComment, "/*\n*/".toList)] "a".toList ∧ m.written = (.ok (some t), l) ∧ t.text = "a" ∧
      m.endsAtBreak = false ∧ { m with rest := "\na".toList }.endsAtBreak = true ∧
      Config.Meets ⟨⟨l, []⟩, [], none⟩ l t ∧ ∀ d, Config.recover ⟨⟨l, []⟩, [], none⟩ (some t) ≠ .next d := by
  have read : Reads (({} : Lexer).input "return/*\n*/a") [⟨.kwReturn, "return", 1, 0⟩]
      (({} : Lexer).input "return/*\n*/a").token.2 := Reads.nil.snoc (by decide)
  have rest : (({} : Lexer).input "return/*\n*/a").token.2.rest = "/*\n*/".toList ++ "a".toList := by decide
  have gap : Gap (({} : Lexer).input "return/*\n*/a").token.2.rest [(.blockComment, "/*\n*/".toList)] "a".toList := by
    rw [rest]
    exact .cons (b := []) (w := "/*\n*/".toList) (r := "a".toList) nofun (by decide) rfl (.nil (b := []) nofun)
  obtain ⟨t, l, t', l', hwritten, -, hkind, -, -, hsingle, hiff, -, hmeets⟩ := semicolon_at_gap_iff (k := .identifier) (n := 1)
    read gap (by decide) (by decide) rfl
  have htext : (({} : Lexer).input "return/*\n*/a").token.2.written.1.toOption.bind (·.map (·.text)) = some "a" := by
    decide
  rw [hwritten] at htext
  have hmet : Config.Meets ⟨⟨l, []⟩, [], none⟩ l t := ⟨rfl, rfl, by rw [hkind]; nofun⟩
  have hlost : ¬(∃ d, Config.recover ⟨⟨l, []⟩, [], none⟩ (some t) = .next d) := by
    rw [hmeets _ hmet]
    decide
  have hends : (({} : Lexer).input "return/*\n*/a").token.2.endsAtBreak = false := by
    have hdiffer := mt hiff.1 (by decide)
    rw [hsingle] at hdiffer
    exact eq_false_of_ne_true hdiffer
  exact ⟨_, t, l, read, gap, hwritten, Option.some.inj htext, hends, hsingle, hmet, fun d hd => hlost ⟨d, hd⟩⟩

end Lexer

end JsMinify
