import JsMinify.Proofs.Lexer.Reading
import JsMinify.Proofs.Lexer.Whole
import Mathlib.Data.List.TakeWhile

/-!
# Where a token was found

`Lexeme.next?` is the lexeme at the head of a text, a regular expression where a slash cannot divide. A token
that the lexer hands out is what is next in the text behind the blanks (`Lexer.token_exact`). The other way
around, `Lexer.Found` says where in the text a token was found. Nothing is added to the text: apart from
blanks, the tokens of a text have no more characters than the text itself (`Lexer.drainFrom_solid`).
-/

namespace JsMinify

variable {l l' : Lexer} {b s v : List Char} {n : Nat} {t : Token} {k : TokenKind}

namespace Lexeme

open TokenKind Text Option Bool Lexer List

/-- The text begins with a slash that opens no comment. -/
def opensSlash : List Char → Bool
  | '/' :: c :: _ => c != '/' && c != '*'
  | _ => false

theorem opensSlash_of_regex? (h : regex? s = some n) : opensSlash s := by
  obtain ⟨c, r, m, rfl, hc, -⟩ := regex?_eq h
  simp [opensSlash, hc]

theorem opensSlash_eq_false (h : s.head? ≠ some '/') : opensSlash s = false := by
  unfold opensSlash
  split
  · exact absurd rfl h
  · rfl

/-- A slash that begins no comment begins a punctuator. -/
theorem punctuator_of_slash (h : rule? ('/' :: s) = some (k, n)) (hk : k.isTrivia = false) :
    ∃ p ∈ punctuators, p.2 = k ∧ p.1.length = n ∧ p.1.toList.head? = some '/' := by
  cases form_of_rule? h with
  | @punctuator p hp hs =>
    have hpos := punctuators_pos p hp
    rw [← String.length_toList] at hpos
    obtain ⟨c, w, hw⟩ := exists_cons_of_ne_nil (length_pos_iff.1 hpos)
    rw [hw, isPrefixOf_cons_cons, and_eq_true, beq_iff_eq] at hs
    exact ⟨p, hp, rfl, rfl, by rw [hw, hs.1]; rfl⟩
  | word hw =>
    have hslash : isNameStart '/' = false := by decide
    rw [isNameStart_of_name? hw] at hslash
    cases hslash
  | number hm => rcases head_of_number? hm with hd | hd <;> cases hd
  | string hs => cases hs
  | getter ha | setter ha => cases ha
  | regex hr => exact absurd rfl (rule?_ne_regex h)
  | _ => cases hk

/-- The lexeme at the head of a text. A slash opens a regular expression where it cannot divide. -/
def next? (divides : Bool) (s : List Char) : Option (TokenKind × Nat) :=
  if opensSlash s && !divides then (regex? s).map (.regex, ·) else rule? s

variable {divides : Bool}

theorem form_of_next? (h : next? divides s = some (k, n)) : Form s k n := by
  unfold next? at h
  split at h
  · exact form_of_map .regex h
  · exact form_of_rule? h

/-- No punctuator begins with a blank. -/
theorem punctuators_solid_heads : ∀ p ∈ punctuators, p.1.toList.head?.any (!Lexer.isBlank ·) := by decide

/-- No lexeme begins with a blank. -/
theorem Form.head (h : Form s k n) : ∃ c r, s = c :: r ∧ isBlank c = false := by
  have hhead : s.head?.any (!Lexer.isBlank ·) := by
    cases h with
    | @punctuator p hp hs =>
      obtain ⟨r, rfl⟩ := isPrefixOf_iff_prefix.1 hs
      have hfirst := punctuators_solid_heads p hp
      cases hw : p.1.toList with
      | nil =>
        rw [hw] at hfirst
        cases hfirst
      | cons c w =>
        rw [hw] at hfirst
        exact hfirst
    | number hn =>
      cases s with
      | nil => cases hn
      | cons c r =>
        rcases head_of_number? hn with hd | rfl
        · rw [head?_cons, any_some, not_eq_true']
          by_contra hc
          rw [not_eq_false] at hc
          rcases (by simpa [isBlank] using hc : c = ' ' ∨ c = '\t') with rfl | rfl <;> cases hd
        · rfl
    | string hl | getter hl | setter hl | word hl | blockComment hl | lineComment hl | lineEnd hl | regex hl =>
      cases s with
      | nil => cases hl
      | cons c r =>
        rw [head?_cons, any_some, not_eq_true']
        by_contra hc
        rw [not_eq_false] at hc
        rcases (by simpa [isBlank] using hc : c = ' ' ∨ c = '\t') with rfl | rfl <;> cases hl
  obtain ⟨c, hc, hblank⟩ := (any_eq_true _ _).1 hhead
  obtain ⟨r, rfl⟩ := head?_eq_some_iff.1 hc
  exact ⟨c, r, rfl, by simpa using hblank⟩

/-- A lexeme holds a character that is no blank. -/
theorem Form.exists_solid (h : Form s k n) : ∃ c ∈ s.take n, isBlank c = false := by
  obtain ⟨c, r, rfl, hc⟩ := h.head
  obtain ⟨m, rfl⟩ := Nat.exists_eq_add_of_lt h.pos
  exact ⟨c, by simp, hc⟩

theorem next?_le (h : next? divides s = some (k, n)) (hk : k.isTrivia = false) : n ≤ s.length := by
  unfold next? at h
  split at h
  · obtain ⟨m, hm, he⟩ := map_eq_some_iff.1 h
    obtain ⟨-, rfl⟩ := Prod.mk.inj he
    exact regex?_le hm
  · exact rule?_le h hk

end Lexeme

open Lexeme

namespace Lexer

/-- The lexer reads on from a text that it was given, and nothing is pushed back. -/
structure Plain (l : Lexer) : Prop where
  loaded : l.loaded = true
  mode : l.mode = .ordinary
  pushed : l.pushed = []

theorem dropWhile_blanks (hb : ∀ c ∈ b, isBlank c) (hs : ∃ c r, s = c :: r ∧ isBlank c = false) :
    (b ++ s).dropWhile isBlank = s := by
  obtain ⟨c, r, rfl, hc⟩ := hs
  rw [List.dropWhile_append_of_pos hb, List.dropWhile_cons_of_neg (by simp [hc])]

variable {u : List Char}

theorem eq_of_blanks (hb : ∀ c ∈ b, isBlank c) (hu : ∀ c ∈ u, isBlank c)
    (hs : ∃ c r, s = c :: r ∧ isBlank c = false) (hv : ∃ c r, v = c :: r ∧ isBlank c = false) (h : b ++ s = u ++ v) :
    s = v := by
  rw [← dropWhile_blanks hb hs, h, dropWhile_blanks hu hv]

theorem slashDivides_eq (l : Lexer) : l.slashDivides = (l.cur.map (·.kind)).any (·.endsOperand) := by
  unfold slashDivides
  rw [Option.any_map]

theorem opensRegex_eq (h : l.rest.dropWhile isBlank = s) : l.opensRegex = (opensSlash s && !l.slashDivides) := by
  rw [opensRegex, h]
  by_cases hs : ∃ d r, s = '/' :: d :: r
  · obtain ⟨d, r, rfl⟩ := hs
    rfl
  · rw [opensSlash.eq_2 s fun d r hr => hs ⟨d, r, hr⟩]
    split
    · exact absurd ⟨_, _, rfl⟩ hs
    · rfl

theorem scan_exact {c : Char} {r : List Char} (hdrop : l.rest.dropWhile isBlank = c :: r) (hc : isBlank c = false)
    (hn : l.rule? (c :: r) = some (k, n)) :
    ∃ pos line, l.scan = (.ok (some ⟨k, String.ofList (joined k ((c :: r).take n)), l.line, pos⟩),
      { l with rest := (c :: r).drop n, pos := pos + n, line := line }) := by
  obtain ⟨line, -, htake⟩ := take_eq l (c :: r) (l.pos + run isBlank l.rest) k n
  refine ⟨l.pos + run isBlank l.rest, line, ?_⟩
  rw [scan, scanFrom_dropWhile, hdrop, scanFrom_lexeme _ hc hn, htake]

/-- A lexeme that stands behind blanks is read. -/
theorem raw_exact (hl : l.Plain) (hrest : l.rest = b ++ v) (hb : ∀ c ∈ b, isBlank c)
    (hn : next? l.slashDivides v = some (k, n)) (hk : k.isTrivia = false) :
    ∃ t l', l.raw = (.ok (some t), l') ∧ t.kind = k ∧ t.text.toList = joined k (v.take n) ∧
      l'.rest = v.drop n ∧ l'.cur = some t ∧ l'.Plain := by
  obtain ⟨c, r, rfl, hc⟩ := (form_of_next? hn).head
  have hdrop : l.rest.dropWhile isBlank = c :: r := by
    rw [hrest]
    exact dropWhile_blanks hb ⟨c, r, rfl, hc⟩
  unfold raw
  rw [opensRegex_eq hdrop]
  unfold next? at hn
  split at hn
  · next hopen =>
    obtain ⟨pos, line, hscan⟩ := scan_exact (l := { l with prev := l.cur, mode := .regex }) hdrop hc hn
    unfold readRegex
    rw [if_pos hopen, hscan]
    exact ⟨_, _, rfl, rfl, String.toList_ofList, rfl, rfl, hl.loaded, rfl, hl.pushed⟩
  · next hopen =>
    have hrule : { l with prev := l.cur }.rule? (c :: r) = some (k, n) := by
      simpa only [rule?, hl.mode] using hn
    obtain ⟨pos, line, hscan⟩ := scan_exact (l := { l with prev := l.cur }) hdrop hc hrule
    have hend : k ≠ .lineEnd := by
      rintro rfl
      cases hk
    unfold advance
    rw [if_neg hopen, hscan]
    simp only [hend, decide_false]
    exact ⟨_, _, rfl, rfl, String.toList_ofList, rfl, rfl, hl.loaded, hl.mode, hl.pushed⟩

theorem handOut_cur (h : l.cur = some t) :
    ∃ t', l.handOut t = (t', { l with line := t'.line, cur := some t' }) ∧ t'.kind = t.kind ∧ t'.text = t.text := by
  refine ⟨{ t with line := (l.countBreaks t).line }, ?_, rfl, rfl⟩
  simp only [handOut, h, if_true]
  rfl

theorem token_eq_skipTrivia (hl : l.Plain) : l.token = l.skipTrivia (l.rest.length + 1) := by
  unfold token
  rw [hl.pushed, hl.loaded]
  rfl

/-- A token that stands behind blanks is handed out. -/
theorem skipTrivia_exact (fuel : Nat) (hl : l.Plain) (hrest : l.rest = b ++ v) (hb : ∀ c ∈ b, isBlank c)
    (hn : next? l.slashDivides v = some (k, n)) (hk : k.isTrivia = false) :
    ∃ t l', skipTrivia (fuel + 1) l = (.ok (some t), l') ∧ t.kind = k ∧ t.text.toList = joined k (v.take n) ∧
      l'.rest = v.drop n ∧ l'.cur.map (·.kind) = some k ∧ l'.prev = l.cur ∧ l'.Plain := by
  obtain ⟨t, l₁, hraw, hkind, htext, hrest₁, hcur, hl₁⟩ := raw_exact hl hrest hb hn hk
  obtain ⟨t', hout, hkind', htext'⟩ := handOut_cur hcur
  have hprev := raw_prev hraw
  refine ⟨t', { l₁ with line := t'.line, cur := some t' }, ?_, hkind'.trans hkind, htext' ▸ htext, hrest₁, ?_,
    hprev, hl₁.loaded, hl₁.mode, hl₁.pushed⟩
  · rw [skipTrivia_succ, hraw]
    simp only [hkind, hk, handOut?, hout]
    rfl
  · simp [hkind', hkind]

theorem token_exact (hl : l.Plain) (hrest : l.rest = b ++ v) (hb : ∀ c ∈ b, isBlank c)
    (hn : next? l.slashDivides v = some (k, n)) (hk : k.isTrivia = false) :
    ∃ t l', l.token = (.ok (some t), l') ∧ t.kind = k ∧ t.text.toList = joined k (v.take n) ∧
      l'.rest = v.drop n ∧ l'.cur.map (·.kind) = some k ∧ l'.prev = l.cur ∧ l'.Plain := by
  rw [token_eq_skipTrivia hl]
  exact skipTrivia_exact _ hl hrest hb hn hk

/-- Where only blanks are left, the text is at its end. -/
theorem token_end (hl : l.Plain) (hb : ∀ c ∈ l.rest, isBlank c) : ∃ l', l.token = (.ok none, l') := by
  have hdrop : l.rest.dropWhile isBlank = [] := List.dropWhile_eq_nil_iff.2 hb
  have hraw : ∃ l', l.raw = (.ok none, l') := by
    unfold raw advance
    rw [opensRegex_eq hdrop, scan, scanFrom_dropWhile]
    simp only [hdrop]
    exact ⟨_, rfl⟩
  obtain ⟨l', hraw⟩ := hraw
  refine ⟨l', ?_⟩
  rw [token_eq_skipTrivia hl, skipTrivia_succ, hraw, endOf, hdrop]

/-! ## What reading leaves behind -/

/-- How many characters are not blank. -/
def solid (s : List Char) : Nat := s.countP (!isBlank ·)

theorem solid_append (s t : List Char) : solid (s ++ t) = solid s + solid t := List.countP_append

theorem solid_eq_zero_iff : solid s = 0 ↔ ∀ c ∈ s, isBlank c := by
  simp [solid, List.countP_eq_zero]

theorem solid_joinLines (s : List Char) :
    solid (joinLines s) ≤ solid s ∧ (solid (joinLines s) = solid s → joinLines s = s) := by
  fun_induction joinLines s with
  | case1 s ih =>
    have hbreak : solid ('\\' :: '\n' :: s) = solid s + 2 := by simp [solid, isBlank]
    refine ⟨by omega, fun h => ?_⟩
    omega
  | case2 c s _ ih =>
    have hcons : ∀ t, solid (c :: t) = solid t + if isBlank c then 0 else 1 := by
      intro t
      cases hc : isBlank c <;> simp [solid, hc]
    rw [hcons, hcons]
    refine ⟨by omega, fun h => ?_⟩
    rw [ih.2 (by omega)]
  | case3 => exact ⟨Nat.le_refl _, fun _ => rfl⟩

theorem solid_joined (k : TokenKind) (w : List Char) :
    solid (joined k w) ≤ solid w ∧ (solid (joined k w) = solid w → joined k w = w) := by
  unfold joined
  split
  · exact solid_joinLines w
  · exact ⟨Nat.le_refl _, fun _ => rfl⟩

/-- What was read: the lexeme that stands at the head of `v`, behind `u`. -/
structure Found (l l' : Lexer) (t : Token) (u v : List Char) (n : Nat) : Prop where
  text : l.rest = u ++ v
  rest : l'.rest = v.drop n
  solid : solid t.text.toList ≤ solid (v.take n)
  plain : l'.Plain
  /-- Behind blanks the token is what is next in the text, or a semicolon for a line break. -/
  exact : (∀ c ∈ u, isBlank c = true) → t.text = ";" ∧ v.head? = some '\n' ∨
    next? l.slashDivides v = some (t.kind, n) ∧ t.text.toList = joined t.kind (v.take n) ∧ l'.cur = some t

theorem raw_found (hl : l.Plain) (h : l.raw = (.ok (some t), l')) :
    ∃ u v n, Found l l' t u v n ∧ ∃ c ∈ v.take n, isBlank c = false := by
  obtain ⟨mode, mode', l₁, r₁, hscan, hmode, hread⟩ := raw_ok h
  have hmode' : mode' = .ordinary := by
    rcases hmode with ⟨-, -, rfl⟩ | ⟨-, -, rfl⟩
    · exact hl.mode
    · rfl
  have hscanned := scan_scanned hscan
  rcases hread with ⟨rfl, rfl⟩ | ⟨-, u, rfl, hk, hr, rfl⟩
  · cases hscanned with
    | @lexeme g v k n _ _ _ text _ head rule =>
      refine ⟨g, v, n, ⟨text, rfl, ?_, ⟨hl.loaded, hmode', hl.pushed⟩, fun hg => .inr ⟨?_, String.toList_ofList, rfl⟩⟩,
        (form_of_lexer_rule? rule).exists_solid⟩
      · rw [String.toList_ofList]
        exact (solid_joined _ _).1
      · rw [next?, ← opensRegex_eq (show l.rest.dropWhile isBlank = v from text ▸ dropWhile_blanks hg head)]
        rcases hmode with ⟨hclosed, rfl, -⟩ | ⟨hopened, rfl, -⟩
        · rw [if_neg (by simp [hclosed])]
          simpa only [rule?, hl.mode] using rule
        · rw [if_pos hopened]
          exact rule
  · cases hr
    cases hscanned with
    | @lexeme g v k n _ _ _ text _ _ rule =>
      have hform := form_of_lexer_rule? rule
      obtain ⟨r, rfl, rfl⟩ := hform.lineEnd_eq hk
      exact ⟨g, '\n' :: r, 1, ⟨text, rfl, show solid ";".toList ≤ solid ['\n'] by decide, ⟨hl.loaded, hmode', hl.pushed⟩, fun _ => .inl ⟨rfl, rfl⟩⟩,
        hform.exists_solid⟩

theorem Found.handOut (h : Found l l' t u v n) : Found l (l'.handOut t).2 (l'.handOut t).1 u v n := by
  have hplain : (l'.handOut t).2.Plain := by
    obtain ⟨cur, he⟩ := handOut_eq l' t
    rw [he]
    exact ⟨h.plain.loaded, h.plain.mode, h.plain.pushed⟩
  have hrest : (l'.handOut t).2.rest = l'.rest := by
    obtain ⟨cur, he⟩ := handOut_eq l' t
    rw [he]
  refine ⟨h.text, hrest.trans h.rest, h.solid, hplain, fun hu => ?_⟩
  rcases h.exact hu with hsemi | ⟨hnext, htext, hcur⟩
  · exact .inl hsemi
  · obtain ⟨t', he, hkind, htext'⟩ := handOut_cur hcur
    rw [he]
    exact .inr ⟨hkind ▸ hnext, by rw [hkind, htext', htext], rfl⟩

/-- A token that is handed out is found in the text. If a line break or a comment was passed over, more than
blanks stand before it. -/
theorem skipTrivia_found {fuel : Nat} (hl : l.Plain) (h : skipTrivia fuel l = (.ok (some t), l')) :
    ∃ u v n, Found l l' t u v n := by
  induction fuel generalizing l with
  | zero => cases (Prod.mk.inj h).1
  | succ fuel ih =>
    obtain ⟨t₁, l₁, hraw, later⟩ := skipTrivia_some h
    obtain ⟨u, v, n, found, c, hc, hsolid⟩ := raw_found hl hraw
    rcases later with ⟨-, hlater⟩ | ⟨-, hout⟩
    · obtain ⟨u', v', n', found'⟩ :=
        ih (l := l₁.countBreaks t₁) ⟨found.plain.loaded, found.plain.mode, found.plain.pushed⟩ hlater
      have hrest : v.drop n = u' ++ v' := found.rest.symm.trans found'.text
      refine ⟨u ++ v.take n ++ u', v', n', ?_, found'.rest, found'.solid, found'.plain, fun hu => ?_⟩
      · rw [found.text, List.append_assoc, List.append_assoc, ← hrest, List.take_append_drop]
      · have hblank := hu c (by simp [hc])
        rw [hsolid] at hblank
        cases hblank
    · cases hout
      exact ⟨u, v, n, found.handOut⟩

/-! ## Pieces -/

theorem token_found (hl : l.Plain) (h : l.token = (.ok (some t), l')) : ∃ u v n, Found l l' t u v n := by
  rw [token_eq_skipTrivia hl] at h
  exact skipTrivia_found hl h

/-- The tokens that are read have no more characters than the text. -/
theorem drainFrom_solid (fuel : Nat) (hl : l.Plain) :
    solid ((drainFrom fuel l).1.flatMap (·.text.toList)) ≤ solid l.rest := by
  induction fuel generalizing l with
  | zero => exact Nat.zero_le _
  | succ fuel ih =>
    rw [drainFrom]
    split
    · exact Nat.zero_le _
    · exact Nat.zero_le _
    · next t l' ht =>
      obtain ⟨u, v, n, found⟩ := token_found hl ht
      have hlater := ih found.plain
      have hsolid := found.solid
      have hsplit : solid v = solid (v.take n) + solid l'.rest := by
        rw [found.rest, ← solid_append, List.take_append_drop]
      rw [found.text, solid_append]
      simp only [List.flatMap_cons, solid_append]
      omega

end Lexer

end JsMinify
