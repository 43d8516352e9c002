import JsMinify.Proofs.Lexer.Endings
import JsMinify.Proofs.Lexer.Reading
import Mathlib.Data.List.Nodup

/-!
# Whole lexemes

`rule?_take` puts the forms of lexemes together: a lexeme is still read where it was read when another text
follows it that neither continues it nor turns `get` and `set` into words before a name. A text that is one
lexeme is `isWhole`.
-/

namespace JsMinify

open List Option TokenKind Along

variable {s w : List Char} {n : Nat} {c : Char} {k : TokenKind} {l l' : Lexer} {p : String × TokenKind} {word : String}
  {t : Token}

def TokenKind.isPunctuator (k : TokenKind) : Bool := punctuators.any (·.2 == k)

def TokenKind.isWord (k : TokenKind) : Bool := k == .identifier || reserved.any (·.2 == k)

namespace Lexeme

open TokenKind Text

/-! ## Punctuators -/

/-- Some punctuator begins with the text. -/
def beginsPunctuator (w : List Char) : Bool := punctuators.any fun p => w.isPrefixOf p.1.toList

theorem punctuators_sorted : punctuators.Pairwise fun p q => q.1.length ≤ p.1.length := by decide

theorem punctuators_nodup : (punctuators.map Prod.fst).Nodup := by decide

/-- What begins a punctuator is one itself. -/
theorem punctuators_closed :
    ∀ p ∈ punctuators, ∀ n < p.1.length, ∃ q ∈ punctuators, q.1.toList = p.1.toList.take (n + 1) := by decide

theorem mem_of_beginsPunctuator (hw : w ≠ []) (h : beginsPunctuator w) : ∃ p ∈ punctuators, p.1.toList = w := by
  obtain ⟨p, hp, hprefix⟩ := any_eq_true.1 h
  have hprefix := isPrefixOf_iff_prefix.1 hprefix
  have hlen := hprefix.length_le
  rw [String.length_toList] at hlen
  have hpos := length_pos_of_ne_nil hw
  obtain ⟨q, hq, he⟩ := punctuators_closed p hp (w.length - 1) (by omega)
  refine ⟨q, hq, ?_⟩
  rw [he, Nat.sub_add_cancel hpos, ← prefix_iff_eq_take.1 hprefix]

/-- The first punctuator of the table that begins a text is the longest one. -/
theorem find?_punctuators (h : punctuators.find? (fun p => p.1.toList.isPrefixOf s) = some p) :
    (p ∈ punctuators ∧ p.1.toList <+: s) ∧ ∀ q ∈ punctuators, q.1.toList <+: s → q.1.length ≤ p.1.length := by
  obtain ⟨hp, before, after, htable, hbefore⟩ := find?_eq_some_iff_append.1 h
  refine ⟨⟨by simp [htable], isPrefixOf_iff_prefix.1 hp⟩, fun q hq hs => ?_⟩
  have hsorted := punctuators_sorted
  rw [htable] at hq hsorted
  rcases mem_append.1 hq with hq | hq
  · have := hbefore q hq
    rw [List.isPrefixOf_iff_prefix.2 hs] at this
    cases this
  · rcases mem_cons.1 hq with rfl | hq
    · exact Nat.le_refl _
    · exact (pairwise_cons.1 (pairwise_append.1 hsorted).2.1).1 q hq

theorem eq_of_toList_eq {q : String × TokenKind} (hp : p ∈ punctuators) (hq : q ∈ punctuators) (h : p.1.toList = q.1.toList) :
    p = q :=
  inj_on_of_nodup_map punctuators_nodup hp hq (String.toList_inj.1 h)

/-- A punctuator is read if no longer one begins there. -/
theorem punctuator?_append (hp : p ∈ punctuators) (x : List Char) : punctuator? (p.1.toList ++ x) = some (p.2, p.1.length) ↔
      ∀ c ∈ x.head?, beginsPunctuator (p.1.toList ++ [c]) = false := by
  constructor
  · intro h c hc
    obtain ⟨q, hq, he⟩ := map_eq_some_iff.1 h
    obtain ⟨-, hlongest⟩ := find?_punctuators hq
    obtain ⟨-, hlen⟩ := Prod.mk.inj he
    by_contra hbegins
    obtain ⟨r, hr, hrw⟩ := mem_of_beginsPunctuator (by simp) (Bool.not_eq_false _ ▸ hbegins)
    obtain ⟨y, rfl⟩ := head?_eq_some_iff.1 hc
    have hle := hlongest r hr (by rw [hrw]; exact ⟨y, by simp⟩)
    rw [← String.length_toList, hrw, length_append, String.length_toList] at hle
    simp only [length_singleton] at hle
    omega
  · intro h
    have hsome : (punctuators.find? fun q => q.1.toList.isPrefixOf (p.1.toList ++ x)).isSome := by
      rw [find?_isSome]
      exact ⟨p, hp, isPrefixOf_iff_prefix.2 ⟨x, rfl⟩⟩
    obtain ⟨q, hq⟩ := isSome_iff_exists.1 hsome
    obtain ⟨⟨hmem, hprefix⟩, hlongest⟩ := find?_punctuators hq
    have hle := hlongest p hp ⟨x, rfl⟩
    have heq : q = p := by
      refine eq_of_toList_eq hmem hp ?_
      obtain ⟨y, hy⟩ := prefix_of_prefix_length_le ⟨x, rfl⟩ hprefix
        (by rw [String.length_toList, String.length_toList]; exact hle)
      cases y with
      | nil => simpa using hy.symm
      | cons c y =>
        rw [← hy] at hprefix
        obtain ⟨z, hz⟩ := (prefix_append_right_inj _).1 hprefix
        have hc : c ∈ x.head? := by simp [← hz]
        have := h c hc
        rw [Bool.eq_false_iff] at this
        refine absurd ?_ this
        refine any_eq_true.2 ⟨q, hmem, isPrefixOf_iff_prefix.2 ⟨y, ?_⟩⟩
        rw [← hy]
        simp
    rw [punctuator?, hq, heq]
    rfl

/-! ## Words before a name -/

/-- The text goes on with a blank character and a name, as after `get` and `set`. -/
def opensName : List Char → Bool
  | c :: d :: _ => blankRanges.contains c && isNameStart d
  | _ => false

theorem accessor?_eq_some_iff :
    accessor? word s = some n ↔ ∃ r, s = word.toList ++ r ∧ opensName r ∧ n = word.toList.length := by
  unfold accessor?
  constructor
  · intro h
    simp only at h
    split at h
    · next hp =>
      obtain ⟨r, rfl⟩ := isPrefixOf_iff_prefix.1 hp
      rw [drop_left] at h
      refine ⟨r, rfl, ?_⟩
      split at h
      · next c d r =>
        split at h
        · next ho => exact ⟨ho, (some.inj h).symm⟩
        · cases h
      · cases h
    · cases h
  · rintro ⟨r, rfl, ho, rfl⟩
    simp only [List.isPrefixOf_iff_prefix.2 (prefix_append _ r), if_true, drop_left]
    unfold opensName at ho
    split at ho
    · simp only [ho, if_true]
    · cases ho

/-- The characters of names within ASCII. -/
def plainNameRanges : Ranges := [(0x24, 0x24), (0x30, 0x39), (0x41, 0x5a), (0x5f, 0x5f), (0x61, 0x7a)]

theorem contains_of_isAlphanum (h : c.isAlphanum) : plainNameRanges.contains c := by
  simp only [Char.isAlphanum, isAlpha_eq, isUpper_eq, isLower_eq, Char.isDigit, Bool.or_eq_true,
    Bool.and_eq_true, decide_eq_true_eq, ge_iff_le, UInt32.le_iff_toNat_le] at h
  refine Ranges.contains_iff.2 ?_
  rcases h with (h | h) | h
  · exact ⟨(0x41, 0x5a), by decide, h⟩
  · exact ⟨(0x61, 0x7a), by decide, h⟩
  · exact ⟨(0x30, 0x39), by decide, h⟩

theorem contains_of_isNameChar (h : isNameChar c) :
    (plainNameRanges ++ letterRanges ++ combiningRanges ++ digitRanges ++ connectorRanges).contains c := by
  have happend : ∀ rs qs : Ranges, Ranges.contains (rs ++ qs) c = (rs.contains c || qs.contains c) := by
    intro rs qs
    simp [Ranges.contains]
  have halpha : c.isAlpha → c.isAlphanum := by
    intro ha
    simp [Char.isAlphanum, ha]
  simp only [happend, Bool.or_eq_true]
  simp only [isNameChar, isNameStart, isNamePart, Bool.or_eq_true, Bool.and_eq_true, decide_eq_true_eq] at h
  rcases h with (((h | h) | h) | h) | (((h | h) | h) | h)
  · exact .inl (.inl (.inl (.inl (contains_of_isAlphanum (halpha h)))))
  · exact .inl (.inl (.inl (.inl (by subst h; decide))))
  · exact .inl (.inl (.inl (.inl (by subst h; decide))))
  · exact .inl (.inl (.inl (.inr h.2)))
  · exact .inl (.inl (.inl (.inl (contains_of_isAlphanum h))))
  · exact .inl (.inl (.inl (.inl (by subst h; decide))))
  · exact .inl (.inl (.inl (.inl (by subst h; decide))))
  · rcases h.2 with (h | h) | h
    · exact .inl (.inl (.inr h))
    · exact .inl (.inr h)
    · exact .inr h

/-- Two sets of characters have none in common. -/
def apart (rs qs : Ranges) : Bool := rs.all fun r => qs.all fun q => r.2 < q.1 || q.2 < r.1

theorem not_contains_of_apart {rs qs : Ranges} (h : apart rs qs) (hr : rs.contains c) : qs.contains c = false := by
  obtain ⟨r, hr, h1, h2⟩ := Ranges.contains_iff.1 hr
  by_contra hq
  obtain ⟨q, hq, h3, h4⟩ := Ranges.contains_iff.1 (Bool.not_eq_false _ ▸ hq)
  have := all_eq_true.1 (all_eq_true.1 h r hr) q hq
  simp only [Bool.or_eq_true, decide_eq_true_eq] at this
  omega

theorem blanks_apart :
    apart (plainNameRanges ++ letterRanges ++ combiningRanges ++ digitRanges ++ connectorRanges) blankRanges = true := by
  decide +kernel

/-- A blank character is no part of a name. -/
theorem isNameChar_of_blank (h : blankRanges.contains c) : isNameChar c = false := by
  by_contra hc
  have := not_contains_of_apart blanks_apart (contains_of_isNameChar (Bool.not_eq_false _ ▸ hc))
  rw [h] at this
  cases this

/-- In a text of letters no word stands before a blank. -/
theorem accessor?_of_isNameChar (h : ∀ c ∈ s, isNameChar c) (word : String) : accessor? word s = none := by
  by_contra hne
  obtain ⟨n, hn⟩ := ne_none_iff_exists'.1 hne
  obtain ⟨r, hs, hopens, -⟩ := accessor?_eq_some_iff.1 hn
  unfold opensName at hopens
  split at hopens
  · next c d r' =>
    rw [Bool.and_eq_true] at hopens
    have hc := h c (by rw [hs]; simp)
    rw [isNameChar_of_blank hopens.1] at hc
    cases hc
  · cases hopens

/-! ## The first character -/

theorem string?_of_head (h : c ≠ '"' ∧ c ≠ '\'') (s : List Char) : string? (c :: s) = none := by
  rw [string?, if_neg (by simpa using h)]

theorem name?_of_head (h : isNameStart c = false) (s : List Char) : name? (c :: s) = none := by
  have hrun : run isNameStart (c :: s) = 0 := run_eq_zero (by simpa using h)
  simp [name?, hrun]

theorem isNameStart_of_name? (h : name? (c :: s) = some n) : isNameStart c := by
  by_contra hc
  rw [name?_of_head (by simpa using hc)] at h
  cases h

theorem accessor?_of_head (h : word.toList.head? ≠ some c) (hword : word.toList ≠ []) : accessor? word (c :: s) = none := by
  by_contra hne
  obtain ⟨n, hn⟩ := ne_none_iff_exists'.1 hne
  obtain ⟨r, hr, -, -⟩ := accessor?_eq_some_iff.1 hn
  cases hw : word.toList with
  | nil => exact hword hw
  | cons d w =>
    rw [hw] at hr h
    exact h (by rw [(cons.inj hr).1]; rfl)

theorem number?_of_head (hd : c.isDigit = false) (hp : c ≠ '.') (s : List Char) : number? (c :: s) = none := by
  have hz : c ≠ '0' := by
    rintro rfl
    cases hd
  have hwhole : whole (c :: s) = 0 := by
    rw [whole_of_head (by simpa using hz), run_eq_zero (by simpa using hd)]
  have hfrac : fraction (c :: s) = 0 := fraction_eq_zero_iff.2 (by simpa using hp)
  rw [number?_eq_decimal? (by rintro d r he; exact absurd (cons.inj he).1 hz), decimal?_eq, hwhole,
    drop_zero, hfrac, if_pos ⟨rfl, by omega⟩]

theorem number?_point (h : ∀ c ∈ s.head?, c.isDigit = false) : number? ('.' :: s) = none := by
  have hwhole : whole ('.' :: s) = 0 := by
    rw [whole_of_head (by simp), run_eq_zero (by simp)]
  rw [number?_eq_decimal? (by rintro d r he; cases (cons.inj he).1), decimal?_eq, hwhole,
    drop_zero, fraction, run_eq_zero h, if_pos ⟨rfl, Nat.le_refl _⟩]

theorem head_of_number? (h : number? (c :: s) = some n) : c.isDigit ∨ c = '.' := by
  by_contra hc
  rw [not_or] at hc
  rw [number?_of_head (by simpa using hc.1) hc.2] at h
  cases h

/-- A character that begins no string and no word. -/
theorem rule?_of_head (hq : c ≠ '"' ∧ c ≠ '\'') (hname : isNameStart c = false) (s : List Char) : rule? (c :: s) =
    ((number? (c :: s)).map (number, ·) <|> (blockComment? (c :: s)).map (blockComment, ·) <|>
      (lineComment? (c :: s)).map (lineComment, ·) <|> (lineEnd? (c :: s)).map (lineEnd, ·) <|>
      punctuator? (c :: s)) := by
  have haccessor : ∀ word : String, word.toList.head?.any isNameStart → accessor? word (c :: s) = none := by
    intro word hword
    obtain ⟨d, hd, hstart⟩ := (Option.any_eq_true _ _).1 hword
    refine accessor?_of_head ?_ (by rintro he; rw [he] at hd; cases hd)
    rw [hd]
    rintro ⟨⟩
    rw [hname] at hstart
    cases hstart
  simp [rule?, string?_of_head hq, haccessor "get" (by decide), haccessor "set" (by decide), word?, name?_of_head hname]

theorem rule?_break (s : List Char) : rule? ('\n' :: s) = some (.lineEnd, 1) := by
  rw [rule?_of_head (by decide) (by decide), number?_of_head (by decide) (by decide)]
  rfl

theorem comment?_of_head (h : c = '/' → s.head? ≠ some '/' ∧ s.head? ≠ some '*') :
    blockComment? (c :: s) = none ∧ lineComment? (c :: s) = none := by
  constructor
  · unfold blockComment?
    split
    · next he =>
      obtain ⟨rfl, rfl⟩ := cons.inj he
      exact absurd rfl (h rfl).2
    · rfl
  · unfold lineComment?
    split
    · next he =>
      obtain ⟨rfl, rfl⟩ := cons.inj he
      exact absurd rfl (h rfl).1
    · rfl

theorem lineEnd?_of_head (h : c ≠ '\n') (s : List Char) : lineEnd? (c :: s) = none := by
  unfold lineEnd?
  split
  · next he => exact absurd (cons.inj he).1 h
  · rfl

/-- The first characters of punctuators begin no other form of lexeme, but for a point and a slash. -/
theorem punctuators_heads : ∀ p ∈ punctuators, p.1.toList ≠ [] ∧ ∀ c ∈ p.1.toList.head?,
    c ≠ '"' ∧ c ≠ '\'' ∧ isNameStart c = false ∧ c.isDigit = false ∧ c ≠ '\n' ∧ (c = '.' → p = (".", .period)) ∧
      (c = '/' → p = ("/", .divide) ∨ p.1.toList.tail.head? = some '=') := by decide

/-! ## All forms -/

theorem rule?_string (h : string? s = some n) : rule? s = some (.string, n) := by
  simp [rule?, h]

theorem isNameStart_of_isDigit (h : c.isDigit) : isNameStart c = false := by
  simp only [Char.isDigit, Bool.and_eq_true, decide_eq_true_eq, ge_iff_le, UInt32.le_iff_toNat_le] at h
  have h0 : 48 ≤ c.toNat := h.1
  have h9 : c.toNat ≤ 57 := h.2
  have halpha : c.isAlpha = false := by
    rw [Bool.eq_false_iff]
    intro ha
    simp only [isAlpha_eq, isUpper_eq, isLower_eq, Bool.or_eq_true, Bool.and_eq_true, decide_eq_true_eq,
      UInt32.le_iff_toNat_le] at ha
    have hval : c.toNat = c.val.toNat := rfl
    rcases ha with ⟨h1, h2⟩ | ⟨h1, h2⟩
    all_goals
      simp at h1 h2
      omega
  have hunder : c ≠ '_' := by
    rintro rfl
    simp at h9
  have hdollar : c ≠ '$' := by
    rintro rfl
    simp at h0
  have hlow : ¬0x80 ≤ c.toNat := by omega
  simp [isNameStart, halpha, hunder, hdollar, hlow]

/-- `get` and `set` are read as words before a name. -/
theorem rule?_accessor (hword : (word, k) ∈ [("get", getProp), ("set", setProp)]) (h : accessor? word s = some n) :
    rule? s = some (k, n) := by
  obtain ⟨r, rfl, -, -⟩ := accessor?_eq_some_iff.1 h
  simp only [mem_cons, Prod.mk.injEq, not_mem_nil, or_false] at hword
  rcases hword with ⟨rfl, rfl⟩ | ⟨rfl, rfl⟩
  · have hstring : string? ("get".toList ++ r) = none := string?_of_head (by decide) _
    rw [rule?, hstring, h]
    rfl
  · have hstring : string? ("set".toList ++ r) = none := string?_of_head (by decide) _
    have hget : accessor? "get" ("set".toList ++ r) = none := accessor?_of_head (by decide) (by decide)
    rw [rule?, hstring, hget, h]
    rfl

theorem rule?_word (h : name? s = some n) (hget : accessor? "get" s = none) (hset : accessor? "set" s = none) :
    rule? s = some (ofWord (String.ofList (s.take n)), n) := by
  have hstring : string? s = none := by
    cases s with
    | nil => rfl
    | cons c s =>
      have hc := isNameStart_of_name? h
      refine string?_of_head ⟨?_, ?_⟩ s
      all_goals
        rintro rfl
        revert hc
        decide
  simp [rule?, h, hstring, hget, hset, word?]

theorem rule?_number (h : number? s = some n) : rule? s = some (.number, n) := by
  cases s with
  | nil => cases h
  | cons c s =>
    have hhead : (c ≠ '"' ∧ c ≠ '\'') ∧ isNameStart c = false := by
      rcases head_of_number? h with hd | rfl
      · refine ⟨⟨?_, ?_⟩, isNameStart_of_isDigit hd⟩
        all_goals
          rintro rfl
          cases hd
      · decide
    rw [rule?_of_head hhead.1 hhead.2, h]
    rfl

/-- The character does not go on with a lexeme. After a number this leaves out a point, which may go on with
it or not. -/
def stops (k : TokenKind) (w : List Char) (c : Char) : Bool :=
  match k with
  | .string => true
  | .regex | .number => !c.isAlphanum
  | k =>
    if k.isPunctuator then
      !beginsPunctuator (w ++ [c]) && !(k == .period && c.isDigit) && !(k == .divide && (c == '/' || c == '*'))
    else !isNameChar c

theorem isPunctuator_of_mem (hp : p ∈ punctuators) : p.2.isPunctuator :=
  any_eq_true.2 ⟨p, hp, beq_self_eq_true p.2⟩

theorem stops_punctuator (hp : p ∈ punctuators) (c : Char) : stops p.2 p.1.toList c =
      (!beginsPunctuator (p.1.toList ++ [c]) && !(p.2 == .period && c.isDigit) &&
        !(p.2 == .divide && (c == '/' || c == '*'))) := by
  have hk := isPunctuator_of_mem hp
  unfold stops
  split
  · next he => rw [he] at hk; cases hk
  · next he => rw [he] at hk; cases hk
  · next he => rw [he] at hk; cases hk
  · rw [if_pos hk]

variable {x : List Char}

theorem rule?_punctuator (hp : p ∈ punctuators) (hx : ∀ c ∈ x.head?, stops p.2 p.1.toList c) :
    rule? (p.1.toList ++ x) = some (p.2, p.1.length) := by
  have hstops : ∀ c ∈ x.head?, (beginsPunctuator (p.1.toList ++ [c]) = false ∧
      (p.2 = .period → c.isDigit = false)) ∧ (p.2 = .divide → c ≠ '/' ∧ c ≠ '*') := by
    intro c hc
    have := hx c hc
    rw [stops_punctuator hp] at this
    simpa [imp_iff_not_or] using this
  have hread := (punctuator?_append hp x).2 fun c hc => (hstops c hc).1.1
  obtain ⟨hne, hheads⟩ := punctuators_heads p hp
  cases hw : p.1.toList with
  | nil => exact absurd hw hne
  | cons c r =>
    obtain ⟨hq, hq', hname, hdigit, hbreak, hpoint, hslash⟩ := hheads c (by rw [hw]; rfl)
    rw [hw] at hslash hread
    have hcomment : c = '/' → (r ++ x).head? ≠ some '/' ∧ (r ++ x).head? ≠ some '*' := by
      intro hc
      rcases hslash hc with hdiv | heq
      · subst hdiv
        obtain ⟨-, rfl⟩ := cons.inj hw
        constructor
        all_goals
          intro hx'
          have := (hstops _ hx').2 rfl
          simp at this
      · obtain ⟨r, rfl⟩ := head?_eq_some_iff.1 heq
        simp
    have hnumber : number? (c :: (r ++ x)) = none := by
      by_cases hc : c = '.'
      · have hper := hpoint hc
        subst hper
        obtain ⟨rfl, rfl⟩ := cons.inj hw
        exact number?_point fun d hd => (hstops d hd).1.2 rfl
      · exact number?_of_head hdigit hc _
    obtain ⟨hblock, hline⟩ := comment?_of_head hcomment
    rw [cons_append] at hread ⊢
    rw [rule?_of_head ⟨hq, hq'⟩ hname, hnumber, hblock, hline, lineEnd?_of_head hbreak, hread]
    rfl

theorem name?_le (h : name? s = some n) : n ≤ s.length := by
  obtain ⟨-, rfl⟩ := name?_eq h
  have h1 := run_le isNameStart s
  have h2 := run_le isNamePart (s.drop (run isNameStart s))
  rw [length_drop] at h2
  omega

variable {r : List Char}

/-- Letters before a character that no name has are read up to their end. -/
theorem name?_of_letters (hw : w ≠ []) (hall : ∀ c ∈ w, isNameStart c)
    (hr : ∀ c ∈ r.head?, isNameChar c = false) : name? (w ++ r) = some w.length := by
  have hstart : run isNameStart (w ++ r) = w.length := by
    rw [run_append hall, run_eq_zero fun c hc => (Bool.or_eq_false_iff.1 (hr c hc)).1, Nat.add_zero]
  have hpart : run isNamePart r = 0 := run_eq_zero fun c hc => (Bool.or_eq_false_iff.1 (hr c hc)).2
  simp [name?, hstart, hpart, hw]

/-- A word before what opens a name is read up to its end. -/
theorem name?_before (hw : w ≠ []) (hall : ∀ c ∈ w, isNameStart c) (hr : opensName r) : name? (w ++ r) = some w.length := by
  refine name?_of_letters hw hall fun c hc => ?_
  unfold opensName at hr
  split at hr
  · cases hc
    exact isNameChar_of_blank (Bool.and_eq_true _ _ ▸ hr).1
  · cases hr

theorem get_isNameStart : ∀ c ∈ "get".toList, isNameStart c := all_eq_true.1 (by decide)

theorem set_isNameStart : ∀ c ∈ "set".toList, isNameStart c := all_eq_true.1 (by decide)

variable {s' : List Char}

/-- A name that was no word before a name is none in another text, unless it is the same word and a name opens
behind it there. -/
theorem accessor?_congr (hw : word.toList ≠ []) (hall : ∀ c ∈ word.toList, isNameStart c)
    (h : name? s = some n) (h' : name? s' = some n) (htake : s'.take n = s.take n)
    (hopen : s.take n = word.toList → opensName (s'.drop n) = opensName (s.drop n)) (hnone : accessor? word s = none) :
    accessor? word s' = none := by
  by_contra hne
  obtain ⟨m, hm⟩ := ne_none_iff_exists'.1 hne
  obtain ⟨r, rfl, hopens, -⟩ := accessor?_eq_some_iff.1 hm
  cases h'.symm.trans (name?_before hw hall hopens)
  rw [take_left] at htake
  rw [drop_left] at hopen
  have hsome : accessor? word s = some word.toList.length := by
    refine accessor?_eq_some_iff.2 ⟨s.drop word.toList.length, ?_, ?_, rfl⟩
    · exact (prefix_iff_eq_append.1 (prefix_iff_eq_take.2 htake)).symm
    · rw [← hopen htake.symm, hopens]
  rw [hnone] at hsome
  cases hsome

theorem ofWord_cases (w : String) : ofWord w = .identifier ∨ (w, ofWord w) ∈ reserved := by
  unfold ofWord
  cases h : reserved.lookup w with
  | none => exact .inl rfl
  | some k =>
    obtain ⟨l₁, l₂, hs, -⟩ := List.lookup_eq_some_iff.1 h
    exact .inr (by simp [hs])

theorem reserved_plain : ∀ p ∈ reserved, p.2 ≠ .string ∧ p.2 ≠ .number ∧ p.2 ≠ .regex ∧ p.2.isPunctuator = false := by decide

/-- A word is stopped by what is no part of a name. -/
theorem stops_word (w : String) (v : List Char) (c : Char) : stops (ofWord w) v c = !isNameChar c := by
  rcases ofWord_cases w with h | h
  · rw [h]
    rfl
  · obtain ⟨hstring, hnumber, hregex, hpunct⟩ := reserved_plain _ h
    unfold stops
    split
    · next he => exact absurd he hstring
    · next he => exact absurd he hregex
    · next he => exact absurd he hnumber
    · simp [hpunct]

theorem punctuators_plain : ∀ p ∈ punctuators, p.2 ≠ .string ∧ p.2 ≠ .regex := by decide

theorem ofWord_plain (w : String) : ofWord w ∉ [.string, .regex, .getProp, .setProp] := by
  rcases ofWord_cases w with he | hmem
  · rw [he]
    decide
  · have hplain : ∀ p ∈ reserved, p.2 ∉ [string, regex, getProp, setProp] := by decide
    exact hplain _ hmem

/-- A regular expression is read only where one may stand. -/
theorem rule?_ne_regex (h : rule? s = some (k, n)) : k ≠ .regex := by
  rintro rfl
  simp only [rule?, orElse_eq_orElse, orElse_eq_or, or_eq_some_iff, word?, punctuator?,
    map_eq_some_iff, Prod.mk.injEq, reduceCtorEq, false_and, and_false, exists_false, false_or] at h
  obtain ⟨-, -, -, ⟨m, -, hw, -⟩ | ⟨-, -, -, -, -, p, hp, hk, -⟩⟩ := h
  · exact ofWord_plain _ (by rw [hw]; decide)
  · exact (punctuators_plain p (find?_punctuators hp).1.1).2 hk

theorem accessor?_of_rule? (h : rule? s = some (k, n)) (hk : k ≠ .getProp ∧ k ≠ .setProp) :
    accessor? "get" s = none ∧ accessor? "set" s = none := by
  have hne : ∀ {word k' m}, (word, k') ∈ [("get", getProp), ("set", setProp)] → accessor? word s = some m → k' = k :=
    fun hword hm => (Prod.mk.inj (some.inj ((rule?_accessor hword hm).symm.trans h))).1
  constructor <;> refine eq_none_iff_forall_ne_some.2 fun m hm => ?_
  · exact hk.1 (hne (by decide) hm).symm
  · exact hk.2 (hne (by decide) hm).symm

/-- A word is read in another text as well, unless a name opens behind `get` or `set` in one of them. -/
theorem rule?_word_congr (hrule : rule? s = some (ofWord (String.ofList (s.take n)), n))
    (h : name? s = some n) (h' : name? s' = some n) (htake : s'.take n = s.take n)
    (hopen : s.take n = "get".toList ∨ s.take n = "set".toList → opensName (s'.drop n) = opensName (s.drop n)) :
    rule? s' = some (ofWord (String.ofList (s.take n)), n) := by
  have hplain := ofWord_plain (String.ofList (s.take n))
  simp only [mem_cons, not_or] at hplain
  obtain ⟨hget, hset⟩ := accessor?_of_rule? hrule ⟨hplain.2.2.1, hplain.2.2.2.1⟩
  have hget' := accessor?_congr (by decide) get_isNameStart h h' htake (hopen ∘ .inl) hget
  have hset' := accessor?_congr (by decide) set_isNameStart h h' htake (hopen ∘ .inr) hset
  rw [← htake]
  exact rule?_word h' hget' hset'

/-- A text that may take the place of what follows a lexeme. -/
structure Replaces (k : TokenKind) (w rest x : List Char) : Prop where
  stops : ∀ c ∈ x.head?, stops k w c = true
  point : k = .number → x.head? = some '.' → rest.head? = some '.'
  opens : w = "get".toList ∨ w = "set".toList → opensName x = opensName rest

/-- A lexeme is still read where it was read if what follows does not change it. -/
theorem rule?_take (h : rule? s = some (k, n)) (hk : k.isTrivia = false)
    (hx : Replaces k (s.take n) (s.drop n) x) : rule? (s.take n ++ x) = some (k, n) := by
  cases form_of_rule? h with
  | string hm => exact rule?_string (string?_take hm x)
  | getter hm | setter hm =>
    obtain ⟨r, rfl, hopens, rfl⟩ := accessor?_eq_some_iff.1 hm
    rw [take_left, drop_left] at hx
    rw [take_left]
    exact rule?_accessor (by decide) (accessor?_eq_some_iff.2 ⟨x, rfl, (hx.opens (by simp)).trans hopens, rfl⟩)
  | word hm =>
    have hstop : ∀ c ∈ x.head?, isNameChar c = false := fun c hc => by
      simpa [stops_word] using hx.stops c hc
    have htake : (s.take n ++ x).take n = s.take n := by
      rw [take_append_of_le_length (by rw [length_take_of_le (name?_le hm)]), take_take,
        Nat.min_self]
    rw [← drop_take_append (name?_le hm) x] at hx
    exact rule?_word_congr h hm (name?_take hm hstop) htake hx.opens
  | number hm =>
    refine rule?_number (number?_take hm (fun c hc => ?_) (hx.point rfl))
    simpa [Lexeme.stops] using hx.stops c hc
  | blockComment | lineComment | lineEnd => cases hk
  | punctuator hmem hp =>
    obtain ⟨r, rfl⟩ := isPrefixOf_iff_prefix.1 hp
    rw [← String.length_toList, take_left] at hx
    rw [← String.length_toList, take_left]
    rw [String.length_toList]
    exact rule?_punctuator hmem hx.stops
  | regex => exact absurd rfl (rule?_ne_regex h)

/-! ## Whole texts -/

/-- The text is one lexeme of a kind: in a string all lines are joined, and a regular expression is read
where one may stand. -/
def isWhole (k : TokenKind) (w : List Char) : Bool :=
  match k with
  | .string => string? w == some w.length && !w.contains '\n'
  | .regex => regex? w == some w.length
  | k => rule? w == some (k, w.length)

/-- `get` and `set` that were not read as words before a name stand before none. -/
theorem opensName_of_rule? (h : rule? s = some (k, n)) (hk : k ≠ .getProp ∧ k ≠ .setProp)
    (hw : s.take n = "get".toList ∨ s.take n = "set".toList) : opensName (s.drop n) = false := by
  obtain ⟨hget, hset⟩ := accessor?_of_rule? h hk
  by_contra ho
  have hs : s = s.take n ++ s.drop n := (take_append_drop n s).symm
  rcases hw with hw | hw <;> rw [hw] at hs
  · cases hget.symm.trans (accessor?_eq_some_iff.2 ⟨_, hs, by simpa using ho, rfl⟩)
  · cases hset.symm.trans (accessor?_eq_some_iff.2 ⟨_, hs, by simpa using ho, rfl⟩)

theorem rule?_le (h : rule? s = some (k, n)) (hk : k.isTrivia = false) : n ≤ s.length := by
  cases form_of_rule? h with
  | string hs => exact string?_le hs
  | getter ha | setter ha =>
    obtain ⟨rfl, hp⟩ := accessor?_length ha
    exact hp.length_le
  | word hn => exact name?_le hn
  | number hn => exact number?_le hn
  | blockComment | lineComment | lineEnd => cases hk
  | punctuator _ hp =>
    rw [← String.length_toList]
    exact (List.isPrefixOf_iff_prefix.1 hp).length_le
  | regex hr => exact regex?_le hr

theorem Form.string?_eq (h : Form s k n) (hk : k = .string) : string? s = some n := by
  cases h with
  | string hs => exact hs
  | word hn => exact absurd (by rw [hk]; decide) (ofWord_plain _)
  | punctuator hp _ => exact absurd hk (punctuators_plain _ hp).1
  | _ => cases hk

theorem punctuators_not_word : ∀ p ∈ punctuators, ¬p.2.isWord := by decide

theorem name?_of_rule? (h : rule? s = some (k, n)) (hk : k.isWord) :
    name? s = some n ∧ ofWord (String.ofList (s.take n)) = k := by
  cases form_of_rule? h with
  | word hn => exact ⟨hn, rfl⟩
  | punctuator hp _ => exact absurd hk (punctuators_not_word _ hp)
  | _ => cases hk

/-- What is taken from a text is one lexeme. -/
theorem isWhole_of_rule? (h : rule? s = some (k, n)) (hk : k.isTrivia = false) (ha : k ≠ .getProp ∧ k ≠ .setProp) :
    isWhole k (if k = .string then joinLines (s.take n) else s.take n) := by
  by_cases hs : k = .string
  · subst hs
    obtain ⟨hjoin, hfree⟩ := string?_joined ((form_of_rule? h).string?_eq rfl)
    simp [isWhole, hjoin, hfree]
  · have hread : rule? (s.take n ++ []) = some (k, n) := by
      refine rule?_take h hk ⟨by simp, by simp, fun hw => ?_⟩
      exact (opensName_of_rule? h ha hw).symm
    have hlen : (s.take n).length = n := length_take_of_le (rule?_le h hk)
    rw [append_nil] at hread
    rw [if_neg hs]
    unfold isWhole
    split
    · exact absurd rfl hs
    · exact absurd rfl (rule?_ne_regex h)
    · rw [hread, hlen, beq_self_eq_true]

theorem rule?_of_isWhole (h : isWhole k w) (hs : k ≠ .string) (hr : k ≠ .regex) : rule? w = some (k, w.length) := by
  unfold isWhole at h
  split at h
  · exact absurd rfl hs
  · exact absurd rfl hr
  · exact beq_iff_eq.1 h

/-- A word begins as a name does. -/
theorem isNameStart_of_isWhole (h : isWhole k w) (hk : k.isWord) : ∃ c r, w = c :: r ∧ isNameStart c := by
  have hrule := rule?_of_isWhole h (by rintro rfl; cases hk) (by rintro rfl; cases hk)
  have hname := (name?_of_rule? hrule hk).1
  cases w with
  | nil => cases hname
  | cons c r => exact ⟨c, r, rfl, isNameStart_of_name? hname⟩

theorem isWhole_of_regex? (h : regex? s = some n) : isWhole .regex (s.take n) := by
  have hread := regex?_take h (x := []) (by simp [Clear])
  have hlen : (s.take n).length = n := length_take_of_le (regex?_le h)
  rw [append_nil] at hread
  simp [isWhole, hread, hlen]

end Lexeme

/-- The text of a token is one lexeme of its kind. Nothing is said of what the parser never keeps. -/
def Token.isGenuine (t : Token) : Bool :=
  match t.kind with
  | .getProp => t.text == "get"
  | .setProp => t.text == "set"
  | .lineEnd | .lineComment | .blockComment => true
  | k => Lexeme.isWhole k t.text.toList

namespace Lexer

open Lexeme

theorem listed_no_accessor : ∀ p ∈ reserved ++ punctuators, p.2 ≠ .getProp ∧ p.2 ≠ .setProp := by decide

/-- The words before the name of an accessor. -/
theorem take_accessor (h : l.rule? s = some (k, n)) :
    (k = .getProp → s.take n = "get".toList) ∧ (k = .setProp → s.take n = "set".toList) := by
  cases hm : l.mode with
  | ordinary =>
    simp only [Lexer.rule?, hm] at h
    cases form_of_rule? h with
    | getter ha =>
      obtain ⟨r, rfl, -, rfl⟩ := accessor?_eq_some_iff.1 ha
      exact ⟨fun _ => take_left, by rintro ⟨⟩⟩
    | setter ha =>
      obtain ⟨r, rfl, -, rfl⟩ := accessor?_eq_some_iff.1 ha
      exact ⟨by rintro ⟨⟩, fun _ => take_left⟩
    | word hw =>
      rcases ofWord_cases (String.ofList (s.take n)) with he | hmem
      · rw [he]
        exact ⟨by rintro ⟨⟩, by rintro ⟨⟩⟩
      · have hne := listed_no_accessor _ (mem_append_left _ hmem)
        exact ⟨fun hk => absurd hk hne.1, fun hk => absurd hk hne.2⟩
    | punctuator listed _ =>
      have hne := listed_no_accessor _ (mem_append_right _ listed)
      exact ⟨fun hk => absurd hk hne.1, fun hk => absurd hk hne.2⟩
    | _ => exact ⟨by rintro ⟨⟩, by rintro ⟨⟩⟩
  | regex =>
    simp only [Lexer.rule?, hm] at h
    obtain ⟨m, hr, he⟩ := map_eq_some_iff.1 h
    cases he
    exact ⟨by rintro ⟨⟩, by rintro ⟨⟩⟩

theorem scan_genuine (h : l.scan = (.ok (some t), l')) : t.isGenuine := by
  cases scan_scanned h with
  | @lexeme _ _ k _ _ _ _ _ _ _ rule =>
    unfold Token.isGenuine
    simp only [String.toList_ofList]
    split
    · rw [joined, if_neg (by decide), (take_accessor rule).1 rfl]
      rfl
    · rw [joined, if_neg (by decide), (take_accessor rule).2 rfl]
      rfl
    · rfl
    · rfl
    · rfl
    · next hget hset hend hline hblock =>
      cases hm : l.mode with
      | ordinary =>
        simp only [Lexer.rule?, hm] at rule
        refine isWhole_of_rule? rule ?_ ⟨hget, hset⟩
        cases k <;> first | rfl | contradiction
      | regex =>
        simp only [Lexer.rule?, hm] at rule
        obtain ⟨m, hr, he⟩ := map_eq_some_iff.1 rule
        cases he
        exact isWhole_of_regex? hr

theorem semi_genuine (line pos : Nat) : (⟨.semi, ";", line, pos⟩ : Token).isGenuine :=
  (by decide : isWhole .semi ";".toList)

theorem raw_genuine (h : l.raw = (.ok (some t), l')) : t.isGenuine := by
  obtain ⟨mode, mode', l₁, r₁, hscan, -, ⟨rfl, -⟩ | ⟨-, u, -, -, ht, -⟩⟩ := raw_ok h
  · exact scan_genuine hscan
  · cases ht
    exact semi_genuine _ _

theorem skipTrivia_genuine {fuel : Nat} (h : skipTrivia fuel l = (.ok (some t), l')) : t.isGenuine := by
  induction fuel generalizing l with
  | zero => cases (Prod.mk.inj h).1
  | succ fuel ih =>
    obtain ⟨u, l₁, hraw, ⟨-, hlater⟩ | ⟨-, hout⟩⟩ := skipTrivia_some h
    · exact ih hlater
    · obtain ⟨cur, he⟩ := handOut_eq l₁ u
      obtain ⟨rfl, -⟩ := Prod.mk.inj (he.symm.trans hout)
      have hu := raw_genuine hraw
      exact hu

/-- A token handed out is genuine if those pushed back are, and so are those still pushed back. -/
theorem token_genuine {r : Option Token} (hp : ∀ t ∈ l.pushed, t.isGenuine) (h : l.token = (.ok r, l')) :
    (∀ t ∈ r, t.isGenuine) ∧ ∀ t ∈ l'.pushed, t.isGenuine := by
  cases hpushed : l.pushed with
  | nil =>
    refine ⟨?_, by simp [token_pushed_nil hpushed h]⟩
    rintro t rfl
    exact skipTrivia_genuine (token_ok hpushed h)
  | cons u rest =>
    rw [token, hpushed] at h
    rw [hpushed] at hp
    obtain ⟨hr, rfl⟩ := Prod.mk.inj h
    cases hr
    obtain ⟨hu, hrest⟩ := forall_mem_cons.1 hp
    refine ⟨fun t ht => ?_, fun t ht => ?_⟩
    · cases ht
      exact hu
    · obtain ⟨v, hv, rfl⟩ := mem_map.1 ht
      by_cases hv' : v = u
      · rw [if_pos hv']
        exact hu
      · rw [if_neg hv']
        exact hrest v hv

end Lexer

end JsMinify
