import JsMinify.Proofs.Lexer.Account
import Mathlib.Data.Nat.Find

/-!
# The patterns of comments and regular expressions

The rules of the lexer for block comments and regular expressions, written as patterns with nested repetitions.
`Pattern.rests` lists everything that a search which backtracks may leave of a text, in the order in which it is found.
`block_comment_ends_first` and `regex_ends_at_slash` say that the scanners find what the search finds, and that there is
nothing else to find: the first `*/`, and the first slash outside escapes and classes.
-/

namespace JsMinify

open List Lexeme

/-- A pattern for the head of a text. -/
inductive Pattern where
  | char (f : Char → Bool)
  | seq (p q : Pattern)
  | alt (p q : Pattern)
  | star (p : Pattern)

namespace Pattern

variable {p q : Pattern} {f : Char → Bool} {c : Char} {s r : List Char}

instance : Append Pattern := ⟨seq⟩

/-- One character. -/
def is (c : Char) : Pattern := char (· == c)

/-- Any character but some. -/
def but (cs : List Char) : Pattern := char (!cs.contains ·)

/-- One or more times. -/
def plus (p : Pattern) : Pattern := p ++ star p

/-- What is left after a step was taken any number of times, more often first. A step that takes nothing is not repeated. -/
def repeated (step : List Char → List (List Char)) (s : List Char) : List (List Char) :=
  (step s).flatMap (fun r => if _h : r.length < s.length then repeated step r else []) ++ [s]
termination_by s.length

/-- What a pattern may leave of a text, in the order in which a search finds it that backtracks: by the first alternative
before the second, and by more repetitions before fewer. What is left in two ways is listed twice. -/
def rests : Pattern → List Char → List (List Char)
  | char _, [] => []
  | char f, c :: s => if f c then [s] else []
  | seq p q, s => (p.rests s).flatMap q.rests
  | alt p q, s => p.rests s ++ q.rests s
  | star p, s => repeated p.rests s

/-- The pattern takes at least one character. -/
def takes : Pattern → Bool
  | char _ => true
  | seq p q => p.takes || q.takes
  | alt p q => p.takes && q.takes
  | star _ => false

theorem rests_append (p q : Pattern) (s : List Char) : (p ++ q).rests s = (p.rests s).flatMap q.rests := rfl

theorem length_le_of_mem_repeated {step : List Char → List (List Char)} {s : List Char} (h : r ∈ repeated step s) :
    r.length ≤ s.length := by
  rw [repeated, mem_append, mem_flatMap, mem_singleton] at h
  obtain ⟨t, -, hr⟩ | rfl := h
  · split at hr
    · next hlt => exact Nat.le_trans (length_le_of_mem_repeated hr) (Nat.le_of_lt hlt)
    · cases hr
  · exact Nat.le_refl _
termination_by s.length

/-- What is left is no longer than the text, and shorter if the pattern takes something. -/
theorem length_of_mem_rests (h : r ∈ p.rests s) : r.length ≤ s.length ∧ (p.takes → r.length < s.length) := by
  induction p generalizing r s with
  | char f =>
    cases s with
    | nil => cases h
    | cons c s =>
      rw [rests] at h
      split at h
      · cases mem_singleton.1 h
        simp
      · cases h
  | seq p q ihp ihq =>
    obtain ⟨t, ht, hr⟩ := mem_flatMap.1 h
    obtain ⟨hp, hp'⟩ := ihp ht
    obtain ⟨hq, hq'⟩ := ihq hr
    refine ⟨by omega, fun htakes => ?_⟩
    rcases Bool.or_eq_true_iff.1 htakes with htakes | htakes
    · exact Nat.lt_of_le_of_lt hq (hp' htakes)
    · exact Nat.lt_of_lt_of_le (hq' htakes) hp
  | alt p q ihp ihq =>
    rcases mem_append.1 h with h | h
    · exact ⟨(ihp h).1, fun htakes => (ihp h).2 (Bool.and_eq_true_iff.1 htakes).1⟩
    · exact ⟨(ihq h).1, fun htakes => (ihq h).2 (Bool.and_eq_true_iff.1 htakes).2⟩
  | star p => exact ⟨length_le_of_mem_repeated h, nofun⟩

/-- A repetition takes the pattern once more, or stops. -/
theorem rests_star (h : p.takes) (s : List Char) : (star p).rests s = (p.rests s).flatMap (star p).rests ++ [s] := by
  rw [rests, repeated]
  congr 1
  refine flatMap_congr fun r hr => ?_
  exact dif_pos ((length_of_mem_rests hr).2 h)

theorem rests_assoc (p q t : Pattern) (s : List Char) : (p ++ q ++ t).rests s = (p ++ (q ++ t)).rests s := flatMap_assoc

theorem rests_alt_append (p q t : Pattern) (s : List Char) : (alt p q ++ t).rests s = (p ++ t).rests s ++ (q ++ t).rests s :=
  flatMap_append

theorem rests_char_append (f : Char → Bool) (q : Pattern) (c : Char) (s : List Char) :
    (char f ++ q).rests (c :: s) = if f c then q.rests s else [] := by
  rw [rests_append, rests]
  split
  · exact flatMap_singleton ..
  · rfl

theorem rests_is_append (c : Char) (q : Pattern) (s : List Char) : (is c ++ q).rests (c :: s) = q.rests s := by
  rw [is, rests_char_append, if_pos (beq_self_eq_true c)]

/-- A repetition takes the pattern once more, or stops. -/
theorem rests_star_append (h : p.takes) (q : Pattern) (s : List Char) :
    (star p ++ q).rests s = (p ++ (star p ++ q)).rests s ++ q.rests s := by
  rw [rests_append, rests_star h, flatMap_append, flatMap_singleton, flatMap_assoc]
  rfl

theorem map_drop_one (o : Option Nat) (c : Char) (s : List Char) : (o.map (· + 1)).map (c :: s).drop = o.map s.drop := by
  cases o <;> rfl

theorem map_drop_two (o : Option Nat) (c d : Char) (s : List Char) :
    (o.map (· + 2)).map (c :: d :: s).drop = o.map s.drop := by
  cases o <;> rfl

/-! ## Block comments -/

/-- Stars, and what may stand before them. -/
def stars : Pattern := star (but ['*']) ++ plus (is '*')

def closing : Pattern := star (but ['/', '*'] ++ stars) ++ is '/'

def blockComment : Pattern := is '/' ++ is '*' ++ stars ++ closing

theorem closing_nil : closing.rests [] = [] := by
  rw [closing, rests_star_append rfl]
  rfl

theorem closing_cons (c : Char) (s : List Char) :
    closing.rests (c :: s) = if c = '/' then [s] else if c = '*' then [] else (stars ++ closing).rests s := by
  rw [closing, rests_star_append rfl, rests_assoc, but, rests_char_append, is, rests]
  by_cases hslash : c = '/'
  · simp [hslash]
  · by_cases hstar : c = '*' <;> simp [hslash, hstar]

theorem stars_other (hc : c ≠ '*') (s : List Char) : (stars ++ closing).rests (c :: s) = (stars ++ closing).rests s := by
  rw [stars, rests_assoc, rests_star_append rfl, rests_assoc, but, rests_char_append]
  simp [hc, plus, is, rests_assoc, rests_char_append]

/-- After a star, more of them are skipped. -/
theorem stars_star (s : List Char) : (stars ++ closing).rests ('*' :: s) = (star (is '*') ++ closing).rests s := by
  rw [stars, rests_assoc, rests_star_append rfl, but, rests_char_append, plus, rests_assoc, rests_is_append]
  rfl

theorem starred_cons (c : Char) (s : List Char) : (star (is '*') ++ closing).rests (c :: s) =
      if c = '*' then (star (is '*') ++ closing).rests s else closing.rests (c :: s) := by
  rw [rests_star_append rfl, is, rests_char_append]
  by_cases hc : c = '*' <;> simp [hc, closing_cons]

/-- The search finds the first `*/`, and in one way only. -/
theorem rests_stars_closing (s : List Char) : (stars ++ closing).rests s = ((blockTail? s).map s.drop).toList := by
  fun_induction blockTail? s with
  | case1 =>
    rw [stars, rests_assoc, rests_star_append rfl]
    rfl
  | case2 s =>
    rw [stars_star, starred_cons, if_neg (by decide), closing_cons, if_pos rfl]
    rfl
  | case3 c s hopen ih =>
    rw [map_drop_one, ← ih]
    by_cases hc : c = '*'
    · subst hc
      rw [stars_star]
      cases s with
      | nil =>
        rw [rests_star_append rfl, closing_nil, stars, rests_assoc, rests_star_append rfl]
        rfl
      | cons d s =>
        have hd : d ≠ '/' := fun h => hopen s rfl (h ▸ rfl)
        rw [starred_cons]
        split
        · next hstar => rw [hstar, stars_star]
        · next hother => rw [closing_cons, if_neg hd, if_neg hother, stars_other hother]
    · exact stars_other hc s

end Pattern

/-- The first place of `*/` in a text ends a comment. -/
theorem Lexeme.blockTail?_eq_some_iff {s : List Char} {n : Nat} : blockTail? s = some n ↔
    ∃ i, n = i + 2 ∧ ['*', '/'] <+: s.drop i ∧ ∀ j < i, ¬['*', '/'] <+: s.drop j := by
  fun_induction blockTail? s generalizing n with
  | case1 => simp
  | case2 s =>
    rw [Option.some.injEq]
    constructor
    · rintro rfl
      exact ⟨0, rfl, by simp, fun j hj => absurd hj j.not_lt_zero⟩
    · rintro ⟨i, rfl, -, hfirst⟩
      cases i with
      | zero => rfl
      | succ i => exact absurd (by simp) (hfirst 0 (Nat.succ_pos i))
  | case3 c s hopen ih =>
    have hhead : ¬['*', '/'] <+: c :: s := by
      rintro ⟨r, hr⟩
      obtain ⟨rfl, rfl⟩ := List.cons.inj hr
      exact hopen r rfl rfl
    rw [Option.map_eq_some_iff]
    constructor
    · rintro ⟨m, hm, rfl⟩
      obtain ⟨i, rfl, hi, hfirst⟩ := ih.1 hm
      refine ⟨i + 1, rfl, hi, fun j hj => ?_⟩
      cases j with
      | zero => exact hhead
      | succ j => exact hfirst j (Nat.lt_of_succ_lt_succ hj)
    · rintro ⟨i, rfl, hi, hfirst⟩
      cases i with
      | zero => exact absurd hi hhead
      | succ i => exact ⟨i + 2, ih.2 ⟨i, rfl, hi, fun j hj => hfirst (j + 1) (Nat.succ_lt_succ hj)⟩, rfl⟩

/-- A block comment ends at the first `*/` behind its beginning: the search finds this end and no other, and there is no
comment without it. -/
theorem block_comment_ends_first (s : List Char) :
    Pattern.blockComment.rests ('/' :: '*' :: s) = ((blockComment? ('/' :: '*' :: s)).map ('/' :: '*' :: s).drop).toList ∧
    ((blockComment? ('/' :: '*' :: s)).isSome ↔ ['*', '/'] <:+: s) ∧
    ∀ n, blockComment? ('/' :: '*' :: s) = some n ↔
      ∃ i, n = i + 4 ∧ ['*', '/'] <+: s.drop i ∧ ∀ j < i, ¬['*', '/'] <+: s.drop j := by
  have hlength : ∀ n, blockComment? ('/' :: '*' :: s) = some n ↔
      ∃ i, n = i + 4 ∧ ['*', '/'] <+: s.drop i ∧ ∀ j < i, ¬['*', '/'] <+: s.drop j := by
    intro n
    rw [blockComment?, Option.map_eq_some_iff]
    constructor
    · rintro ⟨m, hm, rfl⟩
      obtain ⟨i, rfl, hi⟩ := blockTail?_eq_some_iff.1 hm
      exact ⟨i, rfl, hi⟩
    · rintro ⟨i, rfl, hi⟩
      exact ⟨i + 2, blockTail?_eq_some_iff.2 ⟨i, rfl, hi⟩, rfl⟩
  refine ⟨?_, ?_, hlength⟩
  · rw [Pattern.blockComment, Pattern.rests_assoc, Pattern.rests_assoc, Pattern.rests_is_append, Pattern.rests_is_append,
      Pattern.rests_stars_closing, blockComment?, Pattern.map_drop_two]
  · rw [Option.isSome_iff_exists]
    constructor
    · rintro ⟨n, hn⟩
      obtain ⟨i, -, hi, -⟩ := (hlength n).1 hn
      exact hi.isInfix.trans (drop_suffix i s).isInfix
    · rintro ⟨a, b, rfl⟩
      have hplace : ∃ i, ['*', '/'] <+: (a ++ ['*', '/'] ++ b).drop i := ⟨a.length, by simp⟩
      exact ⟨_, (hlength _).2 ⟨Nat.find hplace, rfl, Nat.find_spec hplace, fun j hj => Nat.find_min hplace hj⟩⟩

/-! ## Regular expressions -/

namespace Pattern

def escape : Pattern := is '\\' ++ but ['\n']

def bracket : Pattern := is '[' ++ star (alt (but [']', '\\']) escape) ++ is ']'

/-- A unit of a regular expression, with the characters that do not stand for themselves. -/
def unit (special : List Char) : Pattern := alt (but special) (alt escape bracket)

def body : Pattern := is '/' ++ unit ['*', '\\', '/', '['] ++ star (unit ['\\', '/', '[']) ++ is '/'

def regex : Pattern := body ++ star (char Char.isAlphanum)

/-- What follows a unit, up to the closing slash. -/
def units : Pattern := star (unit ['\\', '/', '[']) ++ is '/'

def members : Pattern := star (alt (but [']', '\\']) escape) ++ (is ']' ++ units)

theorem rests_unit_append (special : List Char) (q : Pattern) (c : Char) (s : List Char) :
    (unit special ++ q).rests (c :: s) = (if special.contains c then [] else q.rests s) ++ ((escape ++ q).rests (c :: s) ++
        if c = '[' then (star (alt (but [']', '\\']) escape) ++ (is ']' ++ q)).rests s else []) := by
  rw [unit, rests_alt_append, rests_alt_append, but, rests_char_append, bracket, rests_assoc, rests_assoc, is,
    rests_char_append]
  simp

theorem rests_escape_append (q : Pattern) (c : Char) (s : List Char) :
    (escape ++ q).rests (c :: s) = if c = '\\' then (but ['\n'] ++ q).rests s else [] := by
  rw [escape, rests_assoc, is, rests_char_append]
  simp

theorem units_nil : units.rests [] = [] := by
  rw [units, rests_star_append rfl]
  rfl

theorem members_nil : members.rests [] = [] := by
  rw [members, rests_star_append rfl]
  rfl

theorem units_cons (c : Char) (s : List Char) : units.rests (c :: s) =
    if c = '\\' then (but ['\n'] ++ units).rests s else if c = '/' then [s] else if c = '[' then members.rests s
    else units.rests s := by
  rw [units, rests_star_append rfl, rests_unit_append, rests_escape_append, ← units, ← members, is, rests]
  by_cases hescape : c = '\\'
  · simp [hescape]
  · by_cases hslash : c = '/'
    · simp [hslash]
    · by_cases hopen : c = '[' <;> simp [hescape, hslash, hopen]

theorem members_cons (c : Char) (s : List Char) : members.rests (c :: s) =
    if c = '\\' then (but ['\n'] ++ members).rests s else if c = ']' then units.rests s else members.rests s := by
  rw [members, rests_star_append rfl, rests_alt_append, rests_escape_append, ← members, but, rests_char_append, is,
    rests_char_append]
  by_cases hescape : c = '\\'
  · simp [hescape, but]
  · by_cases hclose : c = ']' <;> simp [hescape, hclose]

/-- The search finds the slash that closes a regular expression, and in one way only. -/
theorem rests_units (inClass : Bool) (s : List Char) :
    (if inClass then members else units).rests s = ((regexTail? inClass s).map s.drop).toList := by
  fun_induction regexTail? inClass s with
  | case1 b => cases b; exacts [units_nil, members_nil]
  | case2 b s => cases b <;> simp [units_cons, members_cons, but, rests_char_append]
  | case3 b c s hc ih =>
    rw [map_drop_two, ← ih]
    cases b <;> simp [units_cons, members_cons, but, rests_char_append, hc]
  | case4 b s hend =>
    cases s with
    | nil => cases b <;> simp [units_cons, members_cons] <;> rfl
    | cons d s => exact absurd rfl (hend d s rfl)
  | case5 c s _ hc ih =>
    rw [map_drop_one, ← ih, if_pos rfl, members_cons, if_neg hc]
    by_cases hclose : c = ']' <;> simp [hclose]
  | case6 b s hb =>
    rw [if_neg hb, units_cons]
    rfl
  | case7 b c s _ hc hb hs ih =>
    rw [map_drop_one, ← ih, if_neg hb, units_cons, if_neg hc, if_neg hs]
    by_cases hopen : c = '[' <;> simp [hopen]

theorem head?_rests_star_char (f : Char → Bool) (s : List Char) :
    ((star (char f)).rests s).head? = some (s.drop (run f s)) := by
  induction s with
  | nil => rw [rests_star rfl]; rfl
  | cons c s ih =>
    rw [rests_star rfl, rests, run, takeWhile_cons]
    split
    · rw [flatMap_singleton, head?_append, ih]
      rfl
    · rfl

end Pattern

namespace Lexeme

variable {b : Bool} {s r t u v x y : List Char} {n : Nat} {us vs : List (List Char)}

/-- A member of a class: a character, or a backslash with a character. -/
inductive IsClassMember : List Char → Prop
  | plain {c : Char} (hc : c ≠ ']' ∧ c ≠ '\\') : IsClassMember [c]
  | escape {c : Char} (hc : c ≠ '\n') : IsClassMember ['\\', c]

/-- What is passed over in one go on the way to the closing slash: a character, a backslash with a character, or a class. -/
inductive IsRegexUnit : List Char → Prop
  | plain {c : Char} (hc : c ≠ '\\' ∧ c ≠ '/' ∧ c ≠ '[') : IsRegexUnit [c]
  | escape {c : Char} (hc : c ≠ '\n') : IsRegexUnit ['\\', c]
  | bracket {ms : List (List Char)} (hms : ∀ m ∈ ms, IsClassMember m) : IsRegexUnit ('[' :: (ms.flatten ++ [']']))

/-- The text behind an opening slash is units up to a slash: at least one, and the first is no star. -/
structure Closes (s : List Char) (us : List (List Char)) (r : List Char) : Prop where
  text : s = us.flatten ++ '/' :: r
  units : ∀ u ∈ us, IsRegexUnit u
  nonempty : us ≠ []
  starless : us.head? ≠ some ['*']

theorem regexTail?_member (h : IsClassMember u) (s : List Char) :
    regexTail? true (u ++ s) = (regexTail? true s).map (· + u.length) := by
  cases h with
  | plain hc => simp [regexTail?_cons hc.2, hc, bne_iff_ne.2 hc.1]
  | escape hc => simp [regexTail?, hc]

theorem regexTail?_unit (h : IsRegexUnit u) (s : List Char) :
    regexTail? false (u ++ s) = (regexTail? false s).map (· + u.length) := by
  cases h with
  | plain hc => simp [regexTail?_cons hc.1, hc, beq_eq_false_iff_ne.2 hc.2.2]
  | escape hc => simp [regexTail?, hc]
  | @bracket ms hms =>
    have hclass : regexTail? true (ms.flatten ++ ']' :: s) = (regexTail? false s).map (· + (ms.flatten.length + 1)) := by
      induction ms with
      | nil => simp [regexTail?_cons]
      | cons m ms ih =>
        obtain ⟨hm, hms⟩ := forall_mem_cons.1 hms
        rw [flatten_cons, append_assoc, regexTail?_member hm, ih hms, Option.map_map, length_append]
        exact congrArg (Option.map · _) (funext fun k => by simp only [Function.comp]; omega)
    rw [cons_append, append_assoc, regexTail?_cons (by decide)]
    simp [hclass, Option.map_map, Function.comp_def, Nat.add_assoc]

/-- The text goes on with units up to a slash, at first inside a class. -/
def Scanned (r : List Char) : Bool → List Char → Prop
  | false, s => ∃ us : List (List Char), (∀ u ∈ us, IsRegexUnit u) ∧ s = us.flatten ++ '/' :: r
  | true, s => ∃ ms us : List (List Char), (∀ m ∈ ms, IsClassMember m) ∧ (∀ u ∈ us, IsRegexUnit u) ∧
    s = ms.flatten ++ ']' :: (us.flatten ++ '/' :: r)

theorem scanned_of_regexTail? (h : regexTail? b s = some n) : Scanned (s.drop n) b s := by
  fun_induction regexTail? b s generalizing n with
  | case1 | case2 | case4 => cases h
  | case3 b c s hc ih =>
    obtain ⟨m, hm, rfl⟩ := Option.map_eq_some_iff.1 h
    cases b with
    | false =>
      obtain ⟨us, hus, htext⟩ := ih hm
      exact ⟨['\\', c] :: us, forall_mem_cons.2 ⟨.escape hc, hus⟩, by simpa using htext⟩
    | true =>
      obtain ⟨ms, us, hms, hus, htext⟩ := ih hm
      exact ⟨['\\', c] :: ms, us, forall_mem_cons.2 ⟨.escape hc, hms⟩, hus, by simpa using htext⟩
  | case5 c s _ hc ih =>
    obtain ⟨m, hm, rfl⟩ := Option.map_eq_some_iff.1 h
    by_cases hclose : c = ']'
    · subst hclose
      obtain ⟨us, hus, htext⟩ := ih hm
      exact ⟨[], us, forall_mem_nil _, hus, by simpa using htext⟩
    · rw [bne_iff_ne.2 hclose] at ih hm
      obtain ⟨ms, us, hms, hus, htext⟩ := ih hm
      exact ⟨[c] :: ms, us, forall_mem_cons.2 ⟨.plain ⟨hclose, hc⟩, hms⟩, hus, by simpa using htext⟩
  | case6 b s hb =>
    cases h
    cases b with
    | false => exact ⟨[], forall_mem_nil _, rfl⟩
    | true => exact absurd rfl hb
  | case7 b c s _ hc hb hs ih =>
    obtain ⟨m, hm, rfl⟩ := Option.map_eq_some_iff.1 h
    obtain rfl : b = false := eq_false_of_ne_true hb
    by_cases hopen : c = '['
    · subst hopen
      obtain ⟨ms, us, hms, hus, htext⟩ := ih hm
      exact ⟨('[' :: (ms.flatten ++ [']'])) :: us, forall_mem_cons.2 ⟨.bracket hms, hus⟩, by simpa using htext⟩
    · rw [beq_eq_false_iff_ne.2 hopen] at ih hm
      obtain ⟨us, hus, htext⟩ := ih hm
      exact ⟨[c] :: us, forall_mem_cons.2 ⟨.plain ⟨hc, hs, hopen⟩, hus⟩, by simpa using htext⟩

/-- Words of which none begins another, and none begins with a mark, are told apart in a text that ends with the mark. -/
theorem flatten_inj {P : List Char → Prop} {e : Char} (hP : ∀ {u v x y}, P u → P v → u ++ x = v ++ y → u = v)
    (he : ∀ {u x y}, P u → u ++ x ≠ e :: y) (hus : ∀ u ∈ us, P u)
    (hvs : ∀ v ∈ vs, P v) (h : us.flatten ++ e :: r = vs.flatten ++ e :: t) : us = vs ∧ r = t := by
  induction us generalizing vs with
  | nil =>
    cases vs with
    | nil => exact ⟨rfl, (List.cons.inj h).2⟩
    | cons v vs =>
      rw [flatten_cons, append_assoc] at h
      exact absurd h.symm (he (hvs v mem_cons_self))
  | cons u us ih =>
    obtain ⟨hu, hus⟩ := forall_mem_cons.1 hus
    rw [flatten_cons, append_assoc] at h
    cases vs with
    | nil => exact absurd h (he hu)
    | cons v vs =>
      obtain ⟨hv, hrest⟩ := forall_mem_cons.1 hvs
      rw [flatten_cons, append_assoc] at h
      obtain rfl := hP hu hv h
      obtain ⟨rfl, rfl⟩ := ih hus hrest (append_cancel_left h)
      exact ⟨rfl, rfl⟩

theorem IsClassMember.eq_of_append (hu : IsClassMember u) (hv : IsClassMember v) (h : u ++ x = v ++ y) : u = v := by
  cases hu <;> cases hv <;> grind

theorem IsClassMember.ne_close (hu : IsClassMember u) : u ++ x ≠ ']' :: y := by
  cases hu <;> simp_all

theorem IsRegexUnit.eq_of_append (hu : IsRegexUnit u) (hv : IsRegexUnit v) (h : u ++ x = v ++ y) : u = v := by
  cases hu with
  | plain | escape => cases hv <;> grind
  | bracket hms =>
    cases hv with
    | plain | escape => grind
    | bracket hms' =>
      simp only [cons_append, append_assoc, nil_append, cons.injEq, true_and] at h
      rw [(flatten_inj IsClassMember.eq_of_append IsClassMember.ne_close hms hms' h).1]

theorem IsRegexUnit.ne_slash (hu : IsRegexUnit u) : u ++ x ≠ '/' :: y := by
  cases hu <;> simp_all

theorem Closes.unique (h : Closes s us r) (h' : Closes s vs t) : us = vs ∧ r = t :=
  flatten_inj IsRegexUnit.eq_of_append IsRegexUnit.ne_slash h.units h'.units (h.text.symm.trans h'.text)

theorem regexTail?_units (h : ∀ u ∈ us, IsRegexUnit u) (r : List Char) :
    regexTail? false (us.flatten ++ '/' :: r) = some (us.flatten.length + 1) := by
  induction us with
  | nil => simp [regexTail?_cons]
  | cons u us ih =>
    obtain ⟨hu, hus⟩ := forall_mem_cons.1 h
    rw [flatten_cons, append_assoc, regexTail?_unit hu, ih hus, length_append]
    simp
    omega

theorem Closes.head (h : Closes s us r) : ¬s.head?.any (fun c => c = '*' || c = '/') := by
  obtain ⟨rfl, units, nonempty, starless⟩ := h
  cases us with
  | nil => exact absurd rfl nonempty
  | cons u us =>
    rw [flatten_cons, append_assoc]
    cases units u mem_cons_self with
    | @plain c hc =>
      have hstar : c ≠ '*' := fun h => starless (h ▸ rfl)
      simp [hstar, hc]
    | escape | bracket => simp

theorem Closes.drop (h : Closes s us r) : s.drop (us.flatten.length + 1) = r := by
  obtain ⟨rfl, -, -, -⟩ := h
  simp [drop_append]

theorem slash?_eq_some_iff : slash? s = some n ↔ ∃ us r, Closes s us r ∧ n = us.flatten.length + 1 := by
  rw [slash?]
  constructor
  · intro h
    split at h
    · cases h
    · next hhead =>
      obtain ⟨us, units, text⟩ := scanned_of_regexTail? h
      refine ⟨us, s.drop n, ⟨text, units, ?_, ?_⟩, ?_⟩
      · rintro rfl
        exact hhead (by rw [text]; rfl)
      · intro hstar
        obtain ⟨vs, rfl⟩ := head?_eq_some_iff.1 hstar
        exact hhead (by rw [text]; rfl)
      · have htail := regexTail?_units units (s.drop n)
        rw [← text, h] at htail
        exact Option.some.inj htail
  · rintro ⟨us, r, hclose, rfl⟩
    rw [if_neg hclose.head, hclose.text, regexTail?_units hclose.units]

/-- A regular expression is closed by the slash behind its units. -/
theorem regex?_eq_some_iff : regex? ('/' :: s) = some n ↔
    ∃ us r, Closes s us r ∧ n = us.flatten.length + 2 + run Char.isAlphanum r := by
  rw [regex?_slash, Option.map_eq_some_iff]
  constructor
  · rintro ⟨m, hm, rfl⟩
    obtain ⟨us, r, hclose, rfl⟩ := slash?_eq_some_iff.1 hm
    exact ⟨us, r, hclose, by rw [hclose.drop]⟩
  · rintro ⟨us, r, hclose, rfl⟩
    exact ⟨_, slash?_eq_some_iff.2 ⟨us, r, hclose, rfl⟩, by rw [hclose.drop]⟩

end Lexeme

namespace Pattern

/-- The search finds the closing slash, and in one way only. -/
theorem rests_body (s : List Char) : body.rests ('/' :: s) = ((slash? s).map s.drop).toList := by
  cases s with
  | nil => rfl
  | cons c s =>
    have hunits := rests_units false (c :: s)
    rw [if_neg Bool.false_ne_true, units, rests_star_append rfl, rests_unit_append, rests_escape_append, ← units] at hunits
    rw [body, rests_assoc, rests_assoc, rests_is_append, ← units, rests_unit_append, rests_escape_append, slash?]
    by_cases hstar : c = '*'
    · simp [hstar]
    · by_cases hslash : c = '/'
      · simp [hslash]
      · have hhead : ¬(c :: s).head?.any (fun c => c = '*' || c = '/') := by simp [hstar, hslash]
        rw [if_neg hhead, ← hunits]
        simp [hstar, hslash, is, rests]

theorem mem_rests_body : r ∈ body.rests ('/' :: s) ↔ ∃ us, Closes s us r := by
  rw [rests_body, Option.mem_toList, Option.map_eq_some_iff]
  constructor
  · rintro ⟨n, hn, rfl⟩
    obtain ⟨us, r, hclose, rfl⟩ := slash?_eq_some_iff.1 hn
    exact ⟨us, hclose.drop.symm ▸ hclose⟩
  · rintro ⟨us, hclose⟩
    exact ⟨_, slash?_eq_some_iff.2 ⟨us, r, hclose, rfl⟩, hclose.drop⟩

/-- The first that is found is the regular expression with all its flags. -/
theorem head?_rests_regex (s : List Char) : (regex.rests ('/' :: s)).head? = (regex? ('/' :: s)).map ('/' :: s).drop := by
  rw [regex, rests_append, rests_body, regex?_slash]
  cases slash? s with
  | none => rfl
  | some n =>
    rw [Option.map_some, Option.toList_some, flatMap_singleton, head?_rests_star_char, drop_drop]
    simp [Nat.add_right_comm n 1]

end Pattern

/-- A regular expression ends at the slash behind its units and at the flags that follow. There is one way to find the
units, and the search that backtracks finds no other. -/
theorem regex_ends_at_slash (s : List Char) :
    (∀ n, regex? ('/' :: s) = some n ↔ ∃ us r, Closes s us r ∧ n = us.flatten.length + 2 + run Char.isAlphanum r) ∧
    (∀ us r us' r', Closes s us r → Closes s us' r' → us = us' ∧ r = r') ∧
    (Pattern.regex.rests ('/' :: s)).head? = (regex? ('/' :: s)).map ('/' :: s).drop ∧
    (Pattern.body.rests ('/' :: s)).length ≤ 1 ∧ ∀ r, r ∈ Pattern.body.rests ('/' :: s) ↔ ∃ us, Closes s us r := by
  refine ⟨fun n => regex?_eq_some_iff, fun us r us' r' h h' => h.unique h', Pattern.head?_rests_regex s, ?_,
    fun r => Pattern.mem_rests_body⟩
  rw [Pattern.rests_body]
  exact Option.length_toList_le

end JsMinify
