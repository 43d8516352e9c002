import JsMinify.Proofs.Lexer.Lookahead
import JsMinify.Proofs.Node.Clean

/-!
# Pieces next to each other

Pieces that are read back before one text are read back before another one, if the last of them is
(`Legible.exchange`): only the token that stands there looks at what follows. So two lists of pieces are read
back one after the other exactly if each is read back for itself and the text of the second does not go on with
the last token of the first (`Legible.append_iff`). The characters that begin an operand and the tokens that
end one are few enough to settle what an operator can meet.
-/

namespace JsMinify

open List hiding next?
open Lexeme TokenKind Piece Along

variable {x y : List Char} {k : TokenKind} {ps : List Piece} {last : Option TokenKind} {p : Piece}

namespace Lexeme

theorem punctuators_divide : ∀ p ∈ punctuators, p.1 = "/" → p.2 = .divide := by decide

/-- A slash that is a lexeme for itself divides. -/
theorem divide_of_rule? {s : List Char} {n : Nat} (h : rule? ('/' :: s) = some (k, n)) (hn : n = 1) (hk : k.isTrivia = false) :
    k = .divide := by
  obtain ⟨p, hp, rfl, hlen, hhead⟩ := punctuator_of_slash h hk
  obtain ⟨c, hc⟩ := length_eq_one_iff.1 (String.length_toList.trans (hlen.trans hn) : p.1.toList.length = 1)
  rw [hc] at hhead
  exact punctuators_divide p hp (String.toList_inj.1 (by rw [hc, Option.some.inj hhead]; rfl))

/-- What follows a lexeme may be exchanged, but for a lone slash. -/
theorem next?_exchange {divides : Bool} {w : List Char} (h : next? divides (w ++ x) = some (k, w.length))
    (hk : k.isTrivia = false) (hd : k ≠ .divide) (hy : Replaces k w x y) : next? divides (w ++ y) = some (k, w.length) := by
  have hpos := (form_of_next? h).pos
  unfold next? at h ⊢
  split at h
  · next hslash =>
    obtain ⟨m, hm, he⟩ := Option.map_eq_some_iff.1 h
    cases he
    have hread : ∀ {z : List Char}, Clear z → regex? (w ++ z) = some w.length := by
      intro z hz
      have htake := regex?_take hm hz
      rwa [take_left] at htake
    have hlong : 2 ≤ w.length := by
      have hwhole := hread (z := []) (by simp [Clear])
      rcases w with _ | ⟨c, _ | ⟨d, w⟩⟩
      · cases hpos
      · simp [regex?] at hwhole
      · simp
    rw [opensSlash_append hlong x y, if_pos hslash, hread fun c hc => by simpa [stops] using hy.stops c hc]
    rfl
  · next hslash =>
    have hsame : opensSlash (w ++ y) → opensSlash (w ++ x) := by
      rcases w with _ | ⟨c, _ | ⟨d, w⟩⟩
      · cases hpos
      · intro hopens
        by_cases hc : c = '/'
        · subst hc
          exact absurd (divide_of_rule? h rfl hk) hd
        · simp [opensSlash, hc] at hopens
      · intro hopens
        rwa [opensSlash_append (by simp) y x]
    have hother : ¬(opensSlash (w ++ y) && !divides) := by
      intro hopens
      rw [Bool.and_eq_true] at hopens
      exact hslash (Bool.and_eq_true_iff.2 ⟨hsame hopens.1, hopens.2⟩)
    rw [if_neg hother]
    have htake : (w ++ x).take w.length = w := take_left
    have hread := rule?_take h hk (x := y) (by rwa [htake, drop_left])
    rwa [htake] at hread

/-- No lexeme is empty. -/
theorem not_isWhole_nil (k : TokenKind) : isWhole k "".toList = false := by
  unfold isWhole
  split
  · rfl
  · rfl
  · rw [beq_eq_false_iff_ne]
    intro hrule
    exact absurd (form_of_rule? hrule).pos (by decide)

end Lexeme

/-! ## Lists of pieces -/

namespace Piece

theorem tokens_append (ps qs : List Piece) : tokens (ps ++ qs) = tokens ps ++ tokens qs := by
  induction ps with
  | nil => rfl
  | cons p ps ih =>
    obtain ⟨_ | k, text, owner⟩ := p
    · exact ih
    · rw [cons_append, tokens, tokens, ih, cons_append]

theorem tokens_under (i : Nat) (ps : List Piece) : tokens (ps.map (under i)) = tokens ps := by
  induction ps with
  | nil => rfl
  | cons p ps ih =>
    obtain ⟨_ | k, text, owner⟩ := p
    · exact ih
    · rw [map_cons, under, tokens, tokens, ih]

/-- The kind of the last token, or `last` if there is none. -/
def lastKind (last : Option TokenKind) : List Piece → Option TokenKind
  | [] => last
  | ⟨none, _, _⟩ :: ps => lastKind last ps
  | ⟨some k, _, _⟩ :: ps => lastKind (some k) ps

theorem lastKind_of_getLast? (h : ps.getLast? = some p) (hk : p.kind = some k) (last : Option TokenKind) :
    lastKind last ps = some k := by
  induction ps generalizing last with
  | nil => cases h
  | cons q ps ih =>
    cases ps with
    | nil =>
      obtain rfl : q = p := Option.some.inj h
      obtain ⟨_, text, owner⟩ := q
      obtain rfl := hk
      rfl
    | cons r ps =>
      rw [getLast?_cons_cons] at h
      obtain ⟨_ | k', text, owner⟩ := q
      · exact ih h last
      · exact ih h (some k')

theorem text_ne_of_isSound (h : p.isSound) : p.text.toList ≠ [] := by
  intro hnil
  unfold isSound at h
  rw [String.toList_eq_nil_iff.1 hnil] at h
  split at h
  · exact absurd h (by decide)
  · exact absurd h (by decide)
  · exact absurd h (by decide)
  · next k _ _ _ =>
    rw [Bool.and_eq_true] at h
    exact absurd h.2 (by rw [not_isWhole_nil k]; decide)

end Piece

/-! ## The first character -/

/-- How the text of a sound piece begins. -/
inductive Opening (p : Piece) (c : Char) : Prop where
  | blank (kind : p.kind = none) (head : c = ' ')
  | string (kind : p.kind = some .string) (head : c = '"' ∨ c = '\'')
  | word (kind : p.isWordy = true ∧ p.kind ≠ some .number) (head : isNameStart c = true)
  | number (kind : p.kind = some .number) (head : c.isDigit = true ∨ c = '.')
  | regex (kind : p.kind = some .regex) (head : c = '/')
  | punctuator {q : String × TokenKind} (listed : q ∈ punctuators) (kind : p.kind = some q.2)
      (head : q.1.toList.head? = some c) (text : p.text = q.1)

theorem isWord_ofWord (w : String) : (ofWord w).isWord := by
  rcases ofWord_cases w with h | h
  · rw [h]
    rfl
  · rw [isWord, Bool.or_eq_true]
    exact .inr (any_eq_true.2 ⟨_, h, beq_self_eq_true _⟩)

theorem isWordy_of_isWord (hk : p.kind = some k) (hw : k.isWord) : p.isWordy ∧ p.kind ≠ some .number := by
  refine ⟨?_, ?_⟩
  · rw [Piece.isWordy, hk, Option.any_some, TokenKind.isWordy, hw, Bool.true_or]
  · rintro hnumber
    rw [hk] at hnumber
    cases hnumber
    cases hw

theorem opening_of_isSound (h : p.isSound) {c : Char} {r : List Char} (hc : p.text.toList = c :: r) : Opening p c := by
  obtain ⟨kind, text, owner⟩ := p
  change text.toList = c :: r at hc
  unfold isSound at h
  split at h
  · next hk =>
    obtain rfl := beq_iff_eq.1 h
    exact .blank hk (List.cons.inj hc).1.symm
  · next hk =>
    obtain rfl := beq_iff_eq.1 h
    obtain rfl : 'g' = c := (List.cons.inj hc).1
    exact .word ⟨by rw [Piece.isWordy, hk]; rfl, by rw [hk]; decide⟩ (by decide)
  · next hk =>
    obtain rfl := beq_iff_eq.1 h
    obtain rfl : 's' = c := (List.cons.inj hc).1
    exact .word ⟨by rw [Piece.isWordy, hk]; rfl, by rw [hk]; decide⟩ (by decide)
  · next k hget hset hk =>
    simp only [Bool.and_eq_true, Bool.not_eq_true'] at h
    obtain ⟨hsolid, hwhole⟩ := h
    rw [hc] at hwhole
    unfold isWhole at hwhole
    split at hwhole
    · rw [Bool.and_eq_true, beq_iff_eq] at hwhole
      refine .string hk ?_
      by_contra hne
      rw [string?_of_head (not_or.1 hne)] at hwhole
      cases hwhole.1
    · refine .regex hk ?_
      rw [beq_iff_eq, regex?.eq_def] at hwhole
      split at hwhole
      · next he => exact (List.cons.inj he).1
      · cases hwhole
    · next hstring hregex =>
      have hrule := beq_iff_eq.1 hwhole
      generalize hn : (c :: r).length = n at hrule
      cases form_of_rule? hrule with
      | string => exact absurd rfl hstring
      | regex => exact absurd rfl hregex
      | getter => exact absurd rfl hget
      | setter => exact absurd rfl hset
      | word hw => exact .word (isWordy_of_isWord hk (isWord_ofWord _)) (isNameStart_of_name? hw)
      | number hm => exact .number hk (head_of_number? hm)
      | @punctuator q hq hs =>
        obtain ⟨t, ht⟩ := isPrefixOf_iff_prefix.1 hs
        have hnil : t = [] := by
          rw [← length_eq_zero_iff]
          have hlen := congrArg List.length ht
          rw [length_append, String.length_toList, hn] at hlen
          omega
        rw [hnil, append_nil] at ht
        exact .punctuator hq hk (by rw [ht]; rfl) (String.toList_inj.1 (hc.trans ht.symm))
      | _ => cases hsolid

theorem punctuators_openings : ∀ q ∈ punctuators, ∀ c ∈ q.1.toList.head?, c.isAlphanum = false ∧
    Text.blankRanges.contains c = false ∧ (c = '*' → q.2 = .times ∨ q.2 = .timesAssign) := by decide

theorem closers_outside_numbers : ∀ q ∈ punctuators, (q.2 = .rparen ∨ q.2 = .rbrace) ∨ q.2 = .rbracket →
    ∀ c ∈ q.1.toList, inNumber c = false := by decide

namespace Opening

variable {c : Char}

theorem not_isAlphanum (h : Opening p c) (hp : p.isWordy = false) : c.isAlphanum = false := by
  cases h with
  | blank _ head => subst head; rfl
  | string _ head => rcases head with rfl | rfl <;> rfl
  | word kind _ => rw [kind.1] at hp; cases hp
  | number kind _ => rw [Piece.isWordy, kind] at hp; cases hp
  | regex _ head => subst head; rfl
  | punctuator listed _ head _ => exact (punctuators_openings _ listed _ head).1

theorem not_blank (h : Opening p c) (hp : p.kind ≠ none) : Text.blankRanges.contains c = false := by
  have hname : isNameChar c → Text.blankRanges.contains c = false := by
    intro hc
    by_contra hb
    rw [isNameChar_of_blank (Bool.not_eq_false _ ▸ hb)] at hc
    cases hc
  cases h with
  | blank kind _ => exact absurd kind hp
  | string _ head => rcases head with rfl | rfl <;> decide
  | word _ head => exact hname (by rw [isNameChar, head, Bool.true_or])
  | number _ head =>
    rcases head with head | rfl
    · exact hname (by simp [isNameChar, isNamePart, Char.isAlphanum, head])
    · decide
  | regex _ head => subst head; decide
  | punctuator listed _ head _ => exact (punctuators_openings _ listed _ head).2.1

theorem isStar (h : Opening p '*') : p.isStar := by
  cases h with
  | blank _ head => cases head
  | string _ head => rcases head with head | head <;> cases head
  | word _ head => exact absurd head (by decide)
  | number _ head => rcases head with head | head <;> cases head
  | regex _ head => cases head
  | punctuator listed kind head _ =>
    rw [Piece.isStar, kind]
    rcases (punctuators_openings _ listed _ head).2.2 rfl with hk | hk <;> rw [hk] <;> rfl

end Opening

/-- A closing bracket holds no character of a number. -/
theorem outside_of_isCloser (h : p.isSound) (hp : p.isCloser) : ∃ c r, p.text.toList = c :: r ∧ inNumber c = false := by
  obtain ⟨c, r, hc⟩ := exists_cons_of_ne_nil (text_ne_of_isSound h)
  refine ⟨c, r, hc, ?_⟩
  simp only [isCloser, Bool.or_eq_true, beq_iff_eq] at hp
  cases opening_of_isSound h hc with
  | @punctuator q listed kind head text =>
    exact closers_outside_numbers q listed (by simpa [kind] using hp) c (by rw [← text, hc]; exact mem_cons_self)
  | word kind _ =>
    obtain ⟨kind', text, owner⟩ := p
    rcases hp with (rfl | rfl) | rfl <;> cases kind.1
  | blank kind _ | string kind _ | number kind _ | regex kind _ => simp [kind] at hp

namespace Legible

theorem append {qs : List Piece} : Legible last (ps ++ qs) x ↔
      Legible last ps ((textOf qs).toList ++ x) ∧ Legible (lastKind last ps) qs x := by
  induction ps generalizing last with
  | nil => exact ⟨fun h => ⟨trivial, h⟩, fun h => h.2⟩
  | cons p ps ih =>
    obtain ⟨_ | k, text, owner⟩ := p
    · exact ih
    · rw [cons_append, Legible, Legible, textOf_append, String.toList_append, append_assoc, ih, and_assoc]
      rfl

/-- What stands before a token makes a difference only for a slash. -/
theorem congr_last {last' : Option TokenKind} (h : last.any (·.endsOperand) = last'.any (·.endsOperand) ∨
      ((textOf ps).toList ++ x).head? ≠ some '/') (hs : ∀ p ∈ ps.head?, p.kind ≠ none) :
    Legible last ps x ↔ Legible last' ps x := by
  cases ps with
  | nil => exact Iff.rfl
  | cons p ps =>
    obtain ⟨_ | k, text, owner⟩ := p
    · exact absurd rfl (hs _ rfl)
    · rw [Legible, Legible]
      rcases h with h | h
      · rw [h]
      · rw [textOf, String.toList_append, append_assoc] at h
        have hslash : opensSlash (text.toList ++ ((textOf ps).toList ++ x)) = false := by
          unfold opensSlash
          split
          · next he =>
            rw [he] at h
            exact absurd rfl h
          · rfl
        simp only [next?, hslash, Bool.false_and]

/-- What stands behind the next piece does not matter. -/
theorem settled {q : Piece} (hk : p.kind = some k) (hs : ∀ r ∈ p :: q :: ps, r.isSound)
    (hstar : Starless (p :: q :: ps)) (hapart : Apart (p :: q :: ps)) (hend : ∃ r ∈ (q :: ps).getLast?, r.kind ≠ none) :
    Settled k p.text.toList.length (p.text.toList ++ (textOf (q :: ps)).toList) x y := by
  have hq := hs q (by simp)
  obtain ⟨c, w, hc⟩ := exists_cons_of_ne_nil (text_ne_of_isSound hq)
  have hopening := opening_of_isSound hq hc
  have hrest : (textOf (q :: ps)).toList = c :: (w ++ (textOf ps).toList) := by
    rw [textOf, String.toList_append, hc, cons_append]
  refine ⟨?_, fun hnumber hread => ?_, ?_, fun hdivide => ?_⟩
  · rw [hrest, length_append, length_cons]
    omega
  · subst hnumber
    cases hwordy : q.isWordy with
    | true =>
      -- A bracket is closed later, and no number goes past it.
      obtain ⟨b, hb, hcloser⟩ := hapart.1 hk hwordy
      obtain ⟨d, t, hd, hout⟩ := outside_of_isCloser (hs b (by simp [hb])) hcloser
      obtain ⟨ps₁, ps₂, rfl⟩ := append_of_mem hb
      have hsplit : ∀ z, p.text.toList ++ (textOf (q :: (ps₁ ++ b :: ps₂))).toList ++ z =
          (p.text.toList ++ (q.text.toList ++ (textOf ps₁).toList)) ++ d :: (t ++ ((textOf ps₂).toList ++ z)) := by
        intro z
        simp [textOf, textOf_append, hd]
      have hend : ∀ z, Outside (d :: z) := fun z => by simpa [Outside] using hout
      rw [hsplit, number?_append (hend _)] at hread ⊢
      exact hread
    | false =>
      rw [append_assoc] at hread ⊢
      have hclear : Clear ((textOf (q :: ps)).toList ++ y) := by
        intro e he
        rw [hrest] at he
        obtain rfl : c = e := Option.some.inj he
        exact hopening.not_isAlphanum hwordy
      have hnumber := number?_take hread hclear fun hpoint => by
        rw [drop_left, hrest]
        rwa [hrest] at hpoint
      rwa [take_left] at hnumber
  · rw [drop_left]
    cases hr : w ++ (textOf ps).toList with
    | cons d r =>
      rw [hrest, hr]
      rfl
    | nil =>
      -- The last character of all stands here, which is no blank.
      obtain ⟨hw, htext⟩ := append_eq_nil_iff.1 hr
      have hps : ps = [] := by
        cases ps with
        | nil => rfl
        | cons r ps =>
          rw [textOf, String.toList_append, append_eq_nil_iff] at htext
          exact absurd htext.1 (text_ne_of_isSound (hs r (by simp)))
      subst hps
      obtain ⟨r, hr', hkind⟩ := hend
      obtain rfl : q = r := Option.some.inj hr'
      have hsolid := hopening.not_blank hkind
      have hclosed : ∀ z, opensName (c :: z) = false := by
        intro z
        unfold opensName
        split
        · next he =>
          obtain rfl := (List.cons.inj he).1
          rw [hsolid, Bool.false_and]
        · rfl
      rw [hrest, hr, cons_append, cons_append, hclosed, hclosed]
  · rw [drop_left, hrest]
    intro hhead
    obtain rfl : c = '*' := Option.some.inj hhead
    obtain ⟨q', hq', hnot⟩ := hstar.1 (by rw [hk, hdivide])
    obtain rfl : q = q' := Option.some.inj hq'
    rw [hopening.isStar] at hnot
    cases hnot

/-- Pieces that are read back before one text are read back before another, if the last of them is. -/
theorem exchange (hs : ∀ p ∈ ps, p.isSound) (hstar : Starless ps) (hapart : Apart ps)
    (hend : ∀ p ∈ ps.getLast?, ∃ k, p.kind = some k ∧ k ≠ .divide ∧ Replaces k p.text.toList x y) (h : Legible last ps x) :
    Legible last ps y := by
  induction ps generalizing last with
  | nil => trivial
  | cons p ps ih =>
    cases ps with
    | nil =>
      obtain ⟨k, hk, hd, hy⟩ := hend p rfl
      have hsolid := solid_of_isSound (hs p (by simp)) hk
      obtain ⟨_, text, owner⟩ := p
      obtain rfl := hk
      exact ⟨next?_exchange h.1 hsolid hd hy, trivial⟩
    | cons q ps =>
      have hlast : ∃ r ∈ (q :: ps).getLast?, r.kind ≠ none := by
        obtain ⟨r, hr⟩ := Option.ne_none_iff_exists'.1 (mt getLast?_eq_none_iff.1 (cons_ne_nil q ps))
        obtain ⟨k, hk, -⟩ := hend r (by rw [getLast?_cons_cons]; exact hr)
        exact ⟨r, hr, by simp [hk]⟩
      have hrest : ∀ {last}, Legible last (q :: ps) x → Legible last (q :: ps) y :=
        ih (fun r hr => hs r (mem_cons_of_mem p hr)) hstar.2 hapart.2 hend
      obtain ⟨_ | k, text, owner⟩ := p
      · exact hrest h
      · refine ⟨?_, hrest h.2⟩
        have hsolid := solid_of_isSound (hs ⟨some k, text, owner⟩ (by simp)) rfl
        have hnext := next?_append (a := text.toList ++ (textOf (q :: ps)).toList) (v := y)
          (by rw [append_assoc]; exact h.1) hsolid (settled rfl hs hstar hapart hlast)
        rwa [append_assoc] at hnext

end Legible

/-! ## Operands -/

/-- The characters that begin an operand. -/
def Lexeme.beginsOperand (c : Char) : Bool :=
  isNameStart c || c.isDigit || ['.', '"', '\'', '/', '(', '[', '\x7b', '+', '-', '~', '!'].contains c

/-- Characters that can follow an operand: those of operators and brackets, and a blank. -/
def Lexeme.followers : List Char :=
  [' ', '*', '/', '%', '+', '-', '<', '>', '=', '!', '&', '^', '|', '?', ':', ',', ';', '.', '(', ')', ']']

theorem punctuators_opening_operands : ∀ q ∈ punctuators, q.2.opensOperand →
    ∀ c ∈ q.1.toList.head?, beginsOperand c ∧ c ≠ '/' := by decide

theorem followers_stop : ∀ c ∈ followers, isNameChar c = false ∧ c.isAlphanum = false ∧
    ∀ q ∈ punctuators, q.2.endsOperand → stops q.2 q.1.toList c := by decide

theorem punctuators_never_wordy : ∀ q ∈ punctuators, q.2.isWordy = false ∧ q.2 ≠ .string ∧ q.2 ≠ .regex := by decide

/-- An operand begins with one of a few characters, and with a slash only if a regular expression stands
first. -/
theorem Opening.beginsOperand {c : Char} (h : Opening p c) (hp : p.opens) :
    beginsOperand c ∧ (c = '/' → p.kind = some .regex) := by
  unfold Lexeme.beginsOperand
  cases h with
  | blank kind _ => rw [opens, kind] at hp; cases hp
  | string _ head => rcases head with rfl | rfl <;> exact ⟨by decide, fun hc => absurd hc (by decide)⟩
  | word _ head =>
    refine ⟨by rw [head]; rfl, ?_⟩
    rintro rfl
    exact absurd head (by decide)
  | number _ head =>
    rcases head with head | rfl
    · refine ⟨by rw [head, Bool.or_true]; rfl, ?_⟩
      rintro rfl
      cases head
    · exact ⟨by decide, fun hc => absurd hc (by decide)⟩
  | regex kind head => subst head; exact ⟨by decide, fun _ => kind⟩
  | @punctuator q listed kind head _ =>
    rw [opens, kind, Option.any_some] at hp
    have hopen := punctuators_opening_operands q listed hp _ head
    exact ⟨hopen.1, fun hc => absurd hc hopen.2⟩

/-- What can follow an operand does not go on with its last token. -/
theorem stops_of_closes (h : p.isSound) (hk : p.kind = some k) (hp : p.closes) {c : Char}
    (hc : c ∈ followers) : stops k p.text.toList c := by
  obtain ⟨hname, halnum, hpunct⟩ := followers_stop c hc
  rw [closes, hk, Option.any_some] at hp
  cases hsign : k.isPunctuator with
  | false =>
    unfold stops
    split
    · rfl
    · rw [halnum]; rfl
    · rw [halnum]; rfl
    · rw [hsign, hname]; rfl
  | true =>
    obtain ⟨q, hq, hqk⟩ := any_eq_true.1 hsign
    obtain rfl := beq_iff_eq.1 hqk
    obtain ⟨hwordy, hstring, hregex⟩ := punctuators_never_wordy q hq
    obtain ⟨d, r, hd⟩ := exists_cons_of_ne_nil (text_ne_of_isSound h)
    cases opening_of_isSound h hd with
    | @punctuator q' listed kind _ text =>
      have hsame : q'.2 = q.2 := Option.some.inj (kind.symm.trans hk)
      have hstops := hpunct q' listed (hsame ▸ hp)
      rw [hsame, ← text] at hstops
      exact hstops
    | word kind _ =>
      rw [Piece.isWordy, hk, Option.any_some, hwordy] at kind
      cases kind.1
    | number kind _ =>
      rw [← Option.some.inj (kind.symm.trans hk)] at hwordy
      cases hwordy
    | blank kind _ => rw [hk] at kind; cases kind
    | string kind _ => exact absurd (Option.some.inj (hk.symm.trans kind)) hstring
    | regex kind _ => exact absurd (Option.some.inj (hk.symm.trans kind)) hregex

/-- The last token is a name that is a word of its own before another name. -/
def Spelling.endsAccessor (s : Spelling) : Bool :=
  s.pieces.getLast?.any fun p => p.text == "get" || p.text == "set"

def Spelling.begins (s : Spelling) (c : Char) : Bool := (textOf s.pieces).toList.head? == some c

namespace Operand

variable {s : Spelling} (hclean : Clean s) (hop : Operand s)

include hop

theorem exists_last : ∃ init p k, s.pieces = init ++ [p] ∧ p.kind = some k ∧ k.endsOperand := by
  obtain ⟨p, hp, hcloses⟩ := (Option.any_eq_true _ _).1 hop.last
  obtain ⟨init, hinit⟩ := getLast?_eq_some_iff.1 hp
  obtain ⟨k, hk, hends⟩ := (Option.any_eq_true _ _).1 hcloses
  exact ⟨init, p, k, hinit, hk, hends⟩

theorem lastKind_ends (last : Option TokenKind) : (lastKind last s.pieces).any (·.endsOperand) := by
  obtain ⟨init, p, k, hinit, hk, hends⟩ := hop.exists_last
  rw [lastKind_of_getLast? (by rw [hinit, getLast?_concat]) hk]
  exact hends

include hclean

theorem exists_head : ∃ p c r, s.pieces.head? = some p ∧ (textOf s.pieces).toList = c :: r ∧ p.opens ∧ Opening p c := by
  obtain ⟨p, hp, hopens⟩ := (Option.any_eq_true _ _).1 hop.first
  obtain ⟨rest, hrest⟩ := head?_eq_some_iff.1 hp
  have hsound := hclean.sound p (by rw [hrest]; exact mem_cons_self)
  obtain ⟨c, r, hc⟩ := exists_cons_of_ne_nil (text_ne_of_isSound hsound)
  refine ⟨p, c, r ++ (textOf rest).toList, hp, ?_, hopens, opening_of_isSound hsound hc⟩
  rw [hrest, textOf, String.toList_append, hc, cons_append]

/-- An operand is read back before an operator or a bracket as it is read back alone, unless it ends with `get`
or `set` and a name follows. -/
theorem legible_before (hy : ∀ c ∈ y.head?, c ∈ followers)
    (hpoint : y.head? = some '.' → ∀ p ∈ s.pieces.getLast?, p.kind ≠ some .number) :
    Legible last s.pieces y ↔ Legible last s.pieces [] ∧ ¬(s.endsAccessor ∧ opensName y) := by
  obtain ⟨init, p, k, hinit, hk, hends⟩ := hop.exists_last
  have hlast : s.pieces.getLast? = some p := by rw [hinit, getLast?_concat]
  have hsound := hclean.sound p (by rw [hinit]; simp)
  have hdivide : k ≠ .divide := by
    rintro rfl
    cases hends
  have haccessor : s.endsAccessor ↔ p.text.toList = "get".toList ∨ p.text.toList = "set".toList := by
    rw [Spelling.endsAccessor, hlast, Option.any_some, Bool.or_eq_true, beq_iff_eq, beq_iff_eq, String.toList_inj,
      String.toList_inj]
  have hexchange : ∀ {x z : List Char}, Replaces k p.text.toList x z → Legible last s.pieces x → Legible last s.pieces z := by
    intro x z hreplaces
    refine Legible.exchange hclean.sound hclean.starless hop.apart fun q hq => ?_
    obtain rfl : p = q := Option.some.inj (hlast.symm.trans hq)
    exact ⟨k, hk, hdivide, hreplaces⟩
  constructor
  · intro h
    have hopens : p.text.toList = "get".toList ∨ p.text.toList = "set".toList → opensName y = false := by
      intro htext
      rw [hinit] at h
      obtain ⟨kind, text, owner⟩ := p
      obtain rfl := hk
      have hread := (Legible.append.1 h).2.1
      change text.toList = _ ∨ text.toList = _ at htext
      have hslash : ∀ x, opensSlash (text.toList ++ x) = false := by
        intro x
        rcases htext with htext | htext <;> rw [htext] <;> rfl
      rw [next?, hslash, Bool.false_and, if_neg (by decide)] at hread
      have hplain : k ≠ .getProp ∧ k ≠ .setProp := by
        constructor
        all_goals
          rintro rfl
          cases hends
      have hname := opensName_of_rule? hread hplain (by rwa [take_left])
      rwa [drop_left] at hname
    refine ⟨hexchange ⟨by simp, by simp, fun htext => ?_⟩ h, fun hboth => ?_⟩
    · rw [hopens htext]
      rfl
    · rw [hopens (haccessor.1 hboth.1)] at hboth
      cases hboth.2
  · rintro ⟨h, hnot⟩
    refine hexchange ⟨fun c hc => ?_, fun hnumber hp => ?_, fun htext => ?_⟩ h
    · exact stops_of_closes hsound hk (by rw [closes, hk]; exact hends) (hy c hc)
    · exact absurd (hk.trans (congrArg some hnumber)) (hpoint hp p hlast)
    · cases ho : opensName y with
      | false => rfl
      | true => exact absurd ⟨haccessor.2 htext, ho⟩ hnot

/-- An operand is read back behind a token as it is read back alone, unless a regular expression stands where
a slash divides. -/
theorem legible_after (k : TokenKind) :
    Legible (some k) s.pieces x ↔ Legible none s.pieces x ∧ ¬(k.endsOperand ∧ s.begins '/') := by
  obtain ⟨p, c, r, hp, hc, hopens, hopening⟩ := hop.exists_head hclean
  have hkind : ∀ q ∈ s.pieces.head?, q.kind ≠ none := by
    intro q hq hnone
    obtain rfl : p = q := Option.some.inj (hp.symm.trans hq)
    rw [opens, hnone] at hopens
    cases hopens
  have hbegins : s.begins '/' ↔ c = '/' := by
    rw [Spelling.begins, hc, beq_iff_eq, head?_cons, Option.some.injEq]
  by_cases hboth : k.endsOperand ∧ s.begins '/'
  · refine ⟨fun h => ?_, fun h => absurd hboth h.2⟩
    obtain rfl := hbegins.1 hboth.2
    have hregex := (hopening.beginsOperand hopens).2 rfl
    obtain ⟨rest, hrest⟩ := head?_eq_some_iff.1 hp
    obtain ⟨kind, text, owner⟩ := p
    obtain rfl := hregex
    rw [hrest] at h
    have hread := h.1
    rw [Option.any_some, hboth.1, next?, Bool.not_true, Bool.and_false, if_neg (by decide)] at hread
    exact absurd rfl (rule?_ne_regex hread)
  · refine (Legible.congr_last ?_ hkind).trans (iff_self_and.2 fun _ => hboth)
    rw [not_and_or] at hboth
    rcases hboth with hends | hslash
    · exact .inl (by simpa using hends)
    · refine .inr ?_
      rw [hc, cons_append, head?_cons]
      rw [hbegins] at hslash
      simpa using hslash

end Operand

end JsMinify
