import JsMinify.Proofs.Lexer.Found

/-!
# How far a lexeme looks ahead

Whether a lexeme stands at the head of a text is settled by its own characters and by the one after them.
The theorems here say that a text may be exchanged behind that character: for names and punctuators
(`rule?_append`), and for regular expressions (`next?_append`). There are two exceptions. `get` and `set` look
two characters ahead. A number looks three characters ahead when a letter follows it, for it might have an
exponent; but it never looks past a character that no number has (`number?_append`).
-/

namespace JsMinify.Lexeme

open List TokenKind Text Option Bool

variable {n : Nat} {a u s v : List Char} {p : Char → Bool} {k : TokenKind} {c : Char}

/-! ## Names -/

theorem run_cons (hc : p c) (s : List Char) : run p (c :: s) = run p s + 1 := by
  rw [run, takeWhile_cons_of_pos hc, length_cons]
  rfl

/-- A run that ends within a text ends there whatever follows the text. -/
theorem run_congr (h : run p (a ++ u) < a.length) (v : List Char) : run p (a ++ v) = run p (a ++ u) := by
  induction a with
  | nil => cases h
  | cons c a ih =>
    cases hc : p c with
    | true =>
      rw [cons_append, run_cons hc, length_cons] at h
      rw [cons_append, cons_append, run_cons hc, run_cons hc, ih (by omega)]
    | false =>
      have hrun : ∀ s, run p (c :: s) = 0 := fun s => run_eq_zero (by simpa using hc)
      rw [cons_append, cons_append, hrun, hrun]

theorem name?_congr (h : name? (a ++ u) = some n) (hn : n < a.length) (v : List Char) : name? (a ++ v) = some n := by
  obtain ⟨hpos, hsum⟩ := name?_eq h
  have hstart : run isNameStart (a ++ u) ≠ 0 := by
    intro h0
    simp [name?, h0] at h
  have hlead := run_congr (p := isNameStart) (a := a) (u := u) (by omega) v
  generalize run isNameStart (a ++ u) = m at *
  have hdrop : ∀ s, (a ++ s).drop m = a.drop m ++ s := fun s => drop_append_of_le_length (by omega)
  rw [hdrop] at hsum
  have hrest := run_congr (p := isNamePart) (a := a.drop m) (u := u) (by rw [length_drop]; omega) v
  simp only [name?, hlead, if_neg hstart, hdrop, hrest]
  rw [hsum]

/-! ## Numbers -/

/-- A run ends before a text that does not continue it. -/
theorem run_append_stop {x : List Char} (hx : ∀ c ∈ x.head?, p c = false) (b : List Char) : run p (b ++ x) = run p b := by
  induction b with
  | nil => exact run_eq_zero hx
  | cons e b ih =>
    rw [cons_append]
    cases he : p e with
    | true => rw [run_cons he, run_cons he, ih]
    | false =>
      have hzero : ∀ s, run p (e :: s) = 0 := fun s => run_eq_zero (by simpa using he)
      rw [hzero, hzero]

def inNumber (c : Char) : Bool := c.isAlphanum || c == '.' || c == '+' || c == '-'

/-- A text that no character of a number begins. -/
def Outside (x : List Char) : Prop := ∀ c ∈ x.head?, inNumber c = false

section

variable {x : List Char} (hx : Outside x) (b : List Char)

include hx

theorem Outside.clear : Clear x := by
  intro c hc
  have hout := hx c hc
  simp only [inNumber, or_eq_false_iff] at hout
  exact hout.1.1.1

theorem head_append_outside (hc : inNumber c) (hb : b.head? ≠ some c) : (b ++ x).head? ≠ some c := by
  cases b with
  | nil =>
    intro he
    have hout := hx c he
    rw [hc] at hout
    cases hout
  | cons e b => exact hb

theorem exponent_append : exponent (b ++ x) = exponent b := by
  have hdigit := hx.clear.noDigit
  match b with
  | [] => exact exponent_of_clear hx.clear
  | [e] =>
    cases x with
    | nil => rfl
    | cons c u =>
      have hrun : run Char.isDigit (c :: u) = 0 := run_eq_zero hdigit
      have hc := hx c rfl
      simp only [inNumber, or_eq_false_iff, beq_eq_false_iff_ne] at hc
      simp [exponent, hrun, hc.1.2, hc.2]
  | e :: f :: b =>
    have hsigned := run_append_stop hdigit b
    have hplain := run_append_stop hdigit (f :: b)
    rw [cons_append] at hplain
    simp only [cons_append, exponent, hsigned, hplain]

theorem whole_append : whole (b ++ x) = whole b := by
  by_cases hzero : b.head? = some '0'
  · obtain ⟨b, rfl⟩ := head?_eq_some_iff.1 hzero
    rfl
  · rw [whole_of_head hzero, whole_of_head (head_append_outside hx b rfl hzero), run_append_stop hx.clear.noDigit]

theorem fraction_append : fraction (b ++ x) = fraction b := by
  by_cases hpoint : b.head? = some '.'
  · obtain ⟨b, rfl⟩ := head?_eq_some_iff.1 hpoint
    rw [cons_append, fraction, fraction, run_append_stop hx.clear.noDigit]
  · rw [fraction_eq_zero_iff.2 hpoint, fraction_eq_zero_iff.2 (head_append_outside hx b rfl hpoint)]

theorem decimal?_append : decimal? (b ++ x) = decimal? b := by
  have hw := whole_le b
  have hf := fraction_le (b.drop (whole b))
  rw [length_drop] at hf
  rw [decimal?_eq, decimal?_eq, whole_append hx, drop_append_of_le_length hw, fraction_append hx,
    drop_append_of_le_length (by omega), exponent_append hx]

/-- A number is not looked for past a character that no number has. -/
theorem number?_append : number? (b ++ x) = number? b := by
  have hclear := hx.clear
  have hdecimal := decimal?_append hx b
  by_cases hzero : ∃ e r, b = '0' :: e :: r
  · obtain ⟨e, r, rfl⟩ := hzero
    have hhex := run_append_stop (fun d hd => isHexDigit_of_isAlphanum (hclear d hd)) r
    have hoctal := run_append_stop (fun d hd => isOctalDigit_of_isAlphanum (hclear d hd)) (e :: r)
    simp only [cons_append] at hoctal hdecimal
    simp only [cons_append, number?, hhex, hoctal, hdecimal]
  · rw [number?_eq_decimal? fun c r he => absurd ⟨c, r, he⟩ hzero, ← hdecimal]
    refine number?_eq_decimal? fun c r he => ?_
    rcases b with _ | ⟨a, _ | ⟨e, b⟩⟩
    · exact absurd (by rw [← nil_append x, he]; rfl) (head_append_outside hx [] (c := '0') rfl (by simp))
    · have hnext : x = c :: r := (List.cons.inj he).2
      have hc := hclear c (by rw [hnext]; rfl)
      refine ⟨⟨?_, ?_⟩, isOctalDigit_of_isAlphanum hc⟩
      all_goals
        rintro rfl
        cases hc
    · exact absurd ⟨e, b, by rw [(List.cons.inj he).1]⟩ hzero

end

/-! ## The other forms -/

/-- All flags belong to a regular expression. -/
theorem clear_of_regex? (h : regex? s = some n) : Clear (s.drop n) := by
  obtain ⟨c, r, m, rfl, -, -, rfl⟩ := regex?_eq h
  have hflags := head_drop_run Char.isAlphanum ((c :: r).drop m)
  rw [drop_drop] at hflags
  rw [Nat.add_right_comm, drop_succ_cons]
  exact hflags

/-- A point before a digit begins a number. -/
theorem number?_fraction (hc : c.isDigit) (s : List Char) : (number? ('.' :: c :: s)).isSome := by
  have hwhole : whole ('.' :: c :: s) = 0 := by
    rw [whole_of_head (by simp), run_eq_zero (by simp)]
  have hrun := run_cons hc s
  rw [number?_eq_decimal? (by rintro d r he; cases (List.cons.inj he).1), decimal?_eq, hwhole, drop_zero,
    fraction, hrun, if_neg (by omega)]
  rfl

theorem append_eq_take (hn : n ≤ a.length) (u v : List Char) : a ++ v = (a ++ u).take n ++ (a.drop n ++ v) := by
  rw [take_append_of_le_length hn, ← append_assoc, take_append_drop]

theorem accessor?_append {word : String} (h : accessor? word (a ++ u) = some n) (hn : n ≤ a.length)
    (ho : opensName (a.drop n ++ v) = opensName (a.drop n ++ u)) : accessor? word (a ++ v) = some n := by
  obtain ⟨r, hr, hopens, rfl⟩ := accessor?_eq_some_iff.1 h
  refine accessor?_eq_some_iff.2 ⟨a.drop word.toList.length ++ v, ?_, ?_, rfl⟩
  · rw [append_eq_take hn u v, hr, take_left]
  · rw [ho, ← drop_append_of_le_length hn, hr, drop_left, hopens]

theorem isPunctuator_ofWord (w : String) : (ofWord w).isPunctuator = false := by
  rcases ofWord_cases w with h | h
  · rw [h]
    rfl
  · exact (reserved_plain _ h).2.2.2

theorem punctuators_named : ∀ p ∈ punctuators, (p.2 = .period → p.1 = ".") ∧ (p.2 = .divide → p.1 = "/") := by decide

/-- A punctuator is read only where no form before it fits. -/
theorem punctuator?_of_rule? (h : rule? s = some (k, n)) (hk : k.isPunctuator) :
    number? s = none ∧ lineComment? s = none ∧ punctuator? s = some (k, n) := by
  simp only [rule?, orElse_eq_orElse, orElse_eq_or, or_eq_some_iff] at h
  have hkind : ∀ {k' : TokenKind} {o : Option Nat}, k'.isPunctuator = false → o.map (k', ·) ≠ some (k, n) := by
    intro k' o hk' he
    obtain ⟨m, -, he⟩ := map_eq_some_iff.1 he
    rw [(Prod.mk.inj he).1, hk] at hk'
    cases hk'
  rcases h with h | ⟨-, h | ⟨-, h | ⟨-, h | ⟨-, h | ⟨hnumber, h | ⟨-, h | ⟨hline, h | ⟨-, h⟩⟩⟩⟩⟩⟩⟩⟩
  · exact absurd h (hkind rfl)
  · exact absurd h (hkind rfl)
  · exact absurd h (hkind rfl)
  · obtain ⟨m, -, he⟩ := map_eq_some_iff.1 h
    rw [← (Prod.mk.inj he).1, isPunctuator_ofWord] at hk
    cases hk
  · exact absurd h (hkind rfl)
  · exact absurd h (hkind rfl)
  · exact absurd h (hkind rfl)
  · exact absurd h (hkind rfl)
  · exact ⟨map_eq_none_iff.1 hnumber, map_eq_none_iff.1 hline, h⟩

/-- What follows a punctuator that was read does not go on with it, but for a star behind a slash. -/
theorem stops_of_rule? {p : String × TokenKind} (hp : p ∈ punctuators) {r : List Char}
    (h : rule? (p.1.toList ++ r) = some (p.2, p.1.length)) (hc : c ∈ r.head?)
    (hstar : p.2 = .divide → c ≠ '*') : stops p.2 p.1.toList c := by
  obtain ⟨hnumber, hline, hread⟩ := punctuator?_of_rule? h (isPunctuator_of_mem hp)
  obtain ⟨r, rfl⟩ := head?_eq_some_iff.1 hc
  have hbegins := (punctuator?_append hp _).1 hread c rfl
  have hnamed := punctuators_named p hp
  rw [stops_punctuator hp]
  simp only [hbegins, and_eq_true, not_eq_true', and_eq_false_imp, beq_iff_eq]
  refine ⟨⟨trivial, fun hk => ?_⟩, fun hk => ?_⟩
  · rw [hnamed.1 hk] at hnumber
    by_contra hd
    have hsome : (number? (".".toList ++ c :: r)).isSome := number?_fraction (not_eq_false _ ▸ hd) r
    rw [hnumber] at hsome
    cases hsome
  · rw [hnamed.2 hk] at hline
    simp only [or_eq_false_iff, beq_eq_false_iff_ne]
    refine ⟨?_, hstar hk⟩
    rintro rfl
    cases hline

/-- What has to be the same behind a lexeme of a kind for it to be read in another text, though the next
character is the same already. -/
structure Settled (k : TokenKind) (n : Nat) (a u v : List Char) : Prop where
  inside : n < a.length
  number : k = .number → number? (a ++ u) = some n → number? (a ++ v) = some n
  opens : opensName (a.drop n ++ v) = opensName (a.drop n ++ u)
  /-- No comment opens that is closed nowhere. -/
  star : k = .divide → (a.drop n).head? ≠ some '*'

theorem rule?_append (h : rule? (a ++ u) = some (k, n)) (hk : k.isTrivia = false) (hs : Settled k n a u v) :
    rule? (a ++ v) = some (k, n) := by
  have hle := Nat.le_of_lt hs.inside
  have htake : ∀ s, (a ++ s).take n = a.take n := fun s => take_append_of_le_length hle
  have hdrop : ∀ s, (a ++ s).drop n = a.drop n ++ s := fun s => drop_append_of_le_length hle
  have hswap := append_eq_take hle u v
  cases form_of_rule? h with
  | string hm =>
    rw [hswap]
    exact rule?_string (string?_take hm _)
  | getter hm | setter hm => exact rule?_accessor (by decide) (accessor?_append hm hle hs.opens)
  | word hm =>
    have hopen : opensName ((a ++ v).drop n) = opensName ((a ++ u).drop n) := by
      rw [hdrop, hdrop, hs.opens]
    exact rule?_word_congr h hm (name?_congr hm hs.inside v) (by rw [htake, htake]) fun _ => hopen
  | number hm => exact rule?_number (hs.number rfl hm)
  | blockComment | lineComment | lineEnd => cases hk
  | @punctuator p hmem hp =>
    obtain ⟨r, hr⟩ := isPrefixOf_iff_prefix.1 hp
    have hrest : r = a.drop p.1.length ++ u := by
      rw [← hdrop, ← hr, ← String.length_toList, drop_left]
    have hnext : a.drop p.1.length ≠ [] := by
      have hinside := hs.inside
      rw [ne_eq, drop_eq_nil_iff]
      omega
    rw [hswap, ← hr, ← String.length_toList, take_left, String.length_toList]
    refine rule?_punctuator hmem fun c hc => ?_
    rw [head?_append_of_ne_nil _ hnext] at hc
    have hcr : c ∈ r.head? := by rwa [hrest, head?_append_of_ne_nil _ hnext]
    rw [← hr] at h
    refine stops_of_rule? hmem h hcr fun hd => ?_
    rintro rfl
    exact hs.star hd hc
  | regex => exact absurd rfl (rule?_ne_regex h)

theorem opensSlash_append (h : 2 ≤ a.length) (u v : List Char) : opensSlash (a ++ v) = opensSlash (a ++ u) := by
  cases a with
  | nil => cases h
  | cons c a =>
    cases a with
    | nil => simp at h
    | cons d a =>
      simp only [cons_append]
      unfold opensSlash
      by_cases hc : c = '/'
      · subst hc
        rfl
      · simp [hc]

theorem next?_append {divides : Bool} (h : next? divides (a ++ u) = some (k, n)) (hk : k.isTrivia = false)
    (hs : Settled k n a u v) : next? divides (a ++ v) = some (k, n) := by
  have hpos := (form_of_next? h).pos
  have hinside := hs.inside
  unfold next? at h ⊢
  rw [opensSlash_append (by omega) u v]
  split at h
  · next hslash =>
    obtain ⟨m, hm, he⟩ := map_eq_some_iff.1 h
    obtain ⟨rfl, rfl⟩ := Prod.mk.inj he
    have hnext : a.drop m ≠ [] := by
      rw [ne_eq, drop_eq_nil_iff]
      omega
    have hclear := clear_of_regex? hm
    rw [drop_append_of_le_length (Nat.le_of_lt hinside)] at hclear
    have hread : regex? (a ++ v) = some m := by
      rw [append_eq_take (Nat.le_of_lt hinside) u v]
      refine regex?_take hm ?_
      unfold Clear at hclear ⊢
      rw [head?_append_of_ne_nil _ hnext] at hclear ⊢
      exact hclear
    rw [if_pos hslash, hread]
    rfl
  · next hslash =>
    rw [if_neg hslash]
    exact rule?_append h hk hs

end JsMinify.Lexeme
