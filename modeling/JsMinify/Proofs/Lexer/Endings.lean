import JsMinify.Proofs.Lexer.Lexemes

/-!
# Where lexemes end

A lexeme is recognised by its own characters and by what follows it. The theorems here say, form by form,
that a lexeme at the head of a text is still recognised there when the text after it is exchanged for
another one, if the new text does not continue it. A string whose continued lines are joined is a string
again (`string?_joined`).
-/

namespace JsMinify.Lexeme

open List Option

variable {s x y : List Char} {n : Nat} {c q : Char} {b : Bool} {p : Char → Bool}

/-! ## Runs -/

theorem run_append {a : List Char} (h : ∀ c ∈ a, p c) (s : List Char) : run p (a ++ s) = a.length + run p s := by
  unfold run
  rw [takeWhile_append_of_pos h, length_append]

theorem run_eq_zero (h : ∀ c ∈ s.head?, p c = false) : run p s = 0 := by
  cases s with
  | nil => rfl
  | cons c s =>
    have hc : p c = false := h c (by simp)
    rw [run, takeWhile_cons_of_neg (by simp [hc])]
    rfl

theorem all_take_run (p : Char → Bool) (s : List Char) : ∀ c ∈ s.take (run p s), p c := by
  rw [take_run]
  exact fun c hc => mem_takeWhile_imp hc

theorem run_le (p : Char → Bool) (s : List Char) : run p s ≤ s.length :=
  (List.takeWhile_prefix p).length_le

theorem length_take_run (p : Char → Bool) (s : List Char) : (s.take (run p s)).length = run p s := by
  rw [length_take, Nat.min_eq_left (run_le p s)]

theorem head_drop_run (p : Char → Bool) (s : List Char) : ∀ c ∈ (s.drop (run p s)).head?, p c = false := by
  induction s with
  | nil => simp
  | cons c s ih =>
    cases hc : p c with
    | true =>
      rw [run, takeWhile_cons_of_pos hc, length_cons, drop_succ_cons]
      exact ih
    | false =>
      rw [run, takeWhile_cons_of_neg (by simp [hc])]
      intro d hd
      obtain rfl : c = d := by simpa using hd
      exact hc

/-- A run ends where it ended if what follows does not continue it. -/
theorem run_take (p : Char → Bool) (s : List Char) (hx : ∀ c ∈ x.head?, p c = false) :
    run p (s.take (run p s) ++ x) = run p s := by
  rw [run_append (all_take_run p s), run_eq_zero hx, length_take_run, Nat.add_zero]

theorem drop_take_append (h : n ≤ s.length) (y : List Char) : (s.take n ++ y).drop n = y := by
  have hlen : (s.take n).length = n := length_take_of_le h
  rw [drop_append_of_le_length (by omega), drop_eq_nil_of_le (by omega), nil_append]

/-- What a part of a text with another text after it begins with. -/
theorem head_take_append {l : List Char} {b : Nat} (h : c ∈ (l.take b ++ x).head?) : c ∈ l.head? ∨ c ∈ x.head? := by
  cases l with
  | nil => exact .inr (by simpa using h)
  | cons d l =>
    cases b with
    | zero => exact .inr (by simpa using h)
    | succ b => exact .inl (by simpa using h)

/-- A text that no letter or digit begins. -/
def Clear (x : List Char) : Prop := ∀ c ∈ x.head?, c.isAlphanum = false

/-! ## Names -/

def isNameChar (c : Char) : Bool := isNameStart c || isNamePart c

/-- A name is still read where it was read if what follows is no part of a name. -/
theorem name?_take (h : name? s = some n) (hx : ∀ c ∈ x.head?, isNameChar c = false) : name? (s.take n ++ x) = some n := by
  obtain ⟨hpos, rfl⟩ := name?_eq h
  have hx' : ∀ c ∈ x.head?, isNameStart c = false ∧ isNamePart c = false := fun c hc =>
    Bool.or_eq_false_iff.1 (hx c hc)
  have hstart : run isNameStart s ≠ 0 := by
    intro h0
    simp [name?, h0] at h
  have hA := all_take_run isNameStart s
  have hlen := length_take_run isNameStart s
  have hle := run_le isNameStart s
  have hnext := head_drop_run isNameStart s
  generalize run isNameStart s = a at *
  have hpart := run_take isNamePart (s.drop a) fun c hc => (hx' c hc).2
  generalize run isNamePart (s.drop a) = b at *
  have hrest : ∀ c ∈ ((s.drop a).take b ++ x).head?, isNameStart c = false := by
    intro c hc
    rcases head_take_append hc with hc' | hc'
    · exact hnext c hc'
    · exact (hx' c hc').1
  have htake : s.take (a + b) ++ x = s.take a ++ ((s.drop a).take b ++ x) := by
    rw [take_add, append_assoc]
  have hrun : run isNameStart (s.take a ++ ((s.drop a).take b ++ x)) = a := by
    rw [run_append hA, hlen, run_eq_zero hrest, Nat.add_zero]
  rw [htake]
  simp only [name?, hrun, if_neg hstart, drop_take_append hle, hpart]

/-! ## Strings and regular expressions -/

theorem stringTail?_cons (hc : c ≠ '\\') (s : List Char) : stringTail? q (c :: s) =
      if c = q then some 1
      else if c = '\\' || c = '\n' || c = '\r' then none
      else (stringTail? q s).map (· + 1) := by
  rw [stringTail?]
  intro d r hd
  exact absurd hd hc

/-- A string ends at its closing quote, whatever follows. -/
theorem stringTail?_take (hq : q ≠ '\\') (h : stringTail? q s = some n) (x : List Char) :
    stringTail? q (s.take n ++ x) = some n := by
  fun_induction stringTail? q s generalizing n with
  | case1 => cases h
  | case2 c s hc ih =>
    obtain ⟨m, hm, rfl⟩ := map_eq_some_iff.1 h
    rw [take_succ_cons, take_succ_cons, cons_append, cons_append, stringTail?, if_pos hc, ih hm]
    rfl
  | case3 => cases h
  | case4 s =>
    cases h
    rw [take_succ_cons, cons_append, stringTail?_cons hq, if_pos rfl]
  | case5 => cases h
  | case6 c s _ hc hn ih =>
    obtain ⟨m, hm, rfl⟩ := map_eq_some_iff.1 h
    have hb : c ≠ '\\' := by
      rintro rfl
      simp at hn
    rw [take_succ_cons, cons_append, stringTail?_cons hb, if_neg hc, if_neg hn, ih hm]
    rfl

theorem string?_take (h : string? s = some n) (x : List Char) : string? (s.take n ++ x) = some n := by
  obtain ⟨c, r, m, rfl, hc, hm, rfl⟩ := string?_eq h
  have hb : c ≠ '\\' := by
    rintro rfl
    simp at hc
  rw [take_succ_cons, cons_append, string?, if_pos (by simpa using hc), stringTail?_take hb hm]
  rfl

theorem stringTail?_le (h : stringTail? q s = some n) : n ≤ s.length := by
  fun_induction stringTail? q s generalizing n with
  | case1 | case3 | case5 => cases h
  | case2 _ _ _ ih | case6 _ _ _ _ _ ih =>
    obtain ⟨m, hm, rfl⟩ := map_eq_some_iff.1 h
    have := ih hm
    simp only [length_cons]
    omega
  | case4 =>
    cases h
    simp

theorem string?_le (h : string? s = some n) : n ≤ s.length := by
  obtain ⟨_, _, m, rfl, -, hm, rfl⟩ := string?_eq h
  have := stringTail?_le hm
  simp only [length_cons]
  omega

theorem regexTail?_cons (hc : c ≠ '\\') (s : List Char) : regexTail? b (c :: s) =
      if c = '\\' then none
      else if b then (regexTail? (c != ']') s).map (· + 1)
      else if c = '/' then some 1
      else (regexTail? (c == '[') s).map (· + 1) := by
  rw [regexTail?]
  intro d r hd
  exact absurd hd hc

/-- A regular expression ends at its closing slash, whatever follows. -/
theorem regexTail?_take (h : regexTail? b s = some n) (x : List Char) : regexTail? b (s.take n ++ x) = some n := by
  fun_induction regexTail? b s generalizing n with
  | case1 => cases h
  | case2 => cases h
  | case3 b c s hc ih =>
    obtain ⟨m, hm, rfl⟩ := map_eq_some_iff.1 h
    rw [take_succ_cons, take_succ_cons, cons_append, cons_append, regexTail?, if_neg hc, ih hm]
    rfl
  | case4 => cases h
  | case5 c s _ hc ih =>
    obtain ⟨m, hm, rfl⟩ := map_eq_some_iff.1 h
    rw [take_succ_cons, cons_append, regexTail?_cons hc, if_neg hc, if_pos rfl, ih hm]
    rfl
  | case6 b s hb =>
    cases h
    rw [take_succ_cons, cons_append, regexTail?_cons (by decide), if_neg (by decide), if_neg hb, if_pos rfl]
  | case7 b c s _ hc hb hs ih =>
    obtain ⟨m, hm, rfl⟩ := map_eq_some_iff.1 h
    rw [take_succ_cons, cons_append, regexTail?_cons hc, if_neg hc, if_neg hb, if_neg hs, ih hm]
    rfl

theorem regexTail?_bounds (h : regexTail? b s = some n) : 0 < n ∧ n ≤ s.length := by
  fun_induction regexTail? b s generalizing n with
  | case1 | case2 | case4 => cases h
  | case3 _ _ _ _ ih | case5 _ _ _ _ ih | case7 _ _ _ _ _ _ _ ih =>
    obtain ⟨m, hm, rfl⟩ := map_eq_some_iff.1 h
    have := ih hm
    simp only [length_cons]
    omega
  | case6 =>
    cases h
    simp

/-- How far behind the opening slash a regular expression is closed. -/
def slash? (s : List Char) : Option Nat :=
  if s.head?.any (fun c => c = '*' || c = '/') then none else regexTail? false s

theorem regex?_slash (s : List Char) :
    regex? ('/' :: s) = (slash? s).map fun n => n + 1 + run Char.isAlphanum (s.drop n) := by
  cases s with
  | nil => rfl
  | cons c s =>
    rw [regex?, slash?]
    split <;> simp_all

/-- A regular expression is still read where it was read if no flag follows. -/
theorem regex?_take (h : regex? s = some n) (hx : Clear x) : regex? (s.take n ++ x) = some n := by
  obtain ⟨c, r, m, rfl, hc, hm, rfl⟩ := regex?_eq h
  obtain ⟨hpos, hle⟩ := regexTail?_bounds hm
  have hflags := run_take Char.isAlphanum ((c :: r).drop m) hx
  generalize run Char.isAlphanum ((c :: r).drop m) = f at *
  have htail := regexTail?_take hm (((c :: r).drop m).take f ++ x)
  have hdrop := drop_take_append hle (((c :: r).drop m).take f ++ x)
  have htake : ('/' :: c :: r).take (m + 1 + f) ++ x = '/' :: ((c :: r).take m ++ (((c :: r).drop m).take f ++ x)) := by
    rw [Nat.add_right_comm, take_succ_cons, take_add, cons_append, append_assoc]
  obtain ⟨m, rfl⟩ : ∃ k, m = k + 1 := ⟨m - 1, by omega⟩
  rw [htake]
  rw [take_succ_cons, cons_append] at htail hdrop ⊢
  rw [regex?, if_neg (by simpa using hc), htail, map_some, hdrop, hflags]

theorem regex?_le (h : regex? s = some n) : n ≤ s.length := by
  obtain ⟨c, r, m, rfl, -, hm, rfl⟩ := regex?_eq h
  have hbody := (regexTail?_bounds hm).2
  have hflags := run_le Char.isAlphanum ((c :: r).drop m)
  rw [length_drop] at hflags
  simp only [length_cons] at *
  omega

/-! ## Joined lines -/

theorem joinLines_cons (h : c = '\\' → s.head? ≠ some '\n') : joinLines (c :: s) = c :: joinLines s := by
  rw [joinLines]
  rintro r rfl rfl
  exact h rfl rfl

/-- A text without line breaks has none to join. -/
theorem joinLines_of_noBreak (h : '\n' ∉ s) : joinLines s = s := by
  induction s with
  | nil => rfl
  | cons c s ih =>
    have hs : '\n' ∉ s := fun hm => h (mem_cons_of_mem _ hm)
    rw [joinLines_cons, ih hs]
    intro _ hhead
    exact hs (mem_of_mem_head? hhead)

theorem head_of_stringTail? (hq : q ≠ '\n') (h : stringTail? q s = some n) : s.head? ≠ some '\n' := by
  intro hs
  obtain ⟨r, rfl⟩ := head?_eq_some_iff.1 hs
  rw [stringTail?_cons (by decide), if_neg (Ne.symm hq)] at h
  cases h

/-- A string whose lines are joined is a string without line breaks. -/
theorem stringTail?_joined (hq : q ≠ '\\' ∧ q ≠ '\n') (h : stringTail? q s = some n) :
    stringTail? q (joinLines (s.take n)) = some (joinLines (s.take n)).length ∧ '\n' ∉ joinLines (s.take n) := by
  fun_induction stringTail? q s generalizing n with
  | case1 => cases h
  | case2 c s hc ih =>
    obtain ⟨m, hm, rfl⟩ := map_eq_some_iff.1 h
    obtain ⟨hjoin, hfree⟩ := ih hm
    rw [take_succ_cons, take_succ_cons]
    by_cases hn : c = '\n'
    · subst hn
      rw [joinLines]
      exact ⟨hjoin, hfree⟩
    · have hinner : joinLines (c :: s.take m) = c :: joinLines (s.take m) := by
        refine joinLines_cons fun _ hs => head_of_stringTail? hq.2 hm ?_
        cases s with
        | nil => simp at hs
        | cons d s =>
          cases m with
          | zero => simp at hs
          | succ m => exact hs
      rw [joinLines_cons (by simpa using hn), hinner]
      refine ⟨?_, by simp [hfree, Ne.symm hn]⟩
      rw [stringTail?, if_pos hc, hjoin]
      rfl
  | case3 => cases h
  | case4 s =>
    cases h
    rw [take_succ_cons, take_zero, joinLines_cons (by simp)]
    refine ⟨?_, by simpa [joinLines] using Ne.symm hq.2⟩
    rw [stringTail?_cons hq.1, if_pos rfl]
    rfl
  | case5 => cases h
  | case6 c s _ hc hn ih =>
    obtain ⟨m, hm, rfl⟩ := map_eq_some_iff.1 h
    obtain ⟨hjoin, hfree⟩ := ih hm
    have hplain : (c ≠ '\\' ∧ c ≠ '\n') ∧ c ≠ '\r' := by simpa using hn
    rw [take_succ_cons, joinLines_cons (fun hb => absurd hb hplain.1.1)]
    refine ⟨?_, by simp [hfree, Ne.symm hplain.1.2]⟩
    rw [stringTail?_cons hplain.1.1, if_neg hc, if_neg hn, hjoin]
    rfl

theorem string?_joined (h : string? s = some n) :
    string? (joinLines (s.take n)) = some (joinLines (s.take n)).length ∧ '\n' ∉ joinLines (s.take n) := by
  obtain ⟨c, r, m, rfl, hc, hm, rfl⟩ := string?_eq h
  have hq : c ≠ '\\' ∧ c ≠ '\n' := by
    constructor
    all_goals
      rintro rfl
      simp at hc
  obtain ⟨hjoin, hfree⟩ := stringTail?_joined hq hm
  rw [take_succ_cons, joinLines_cons (fun hb => absurd hb hq.1)]
  refine ⟨?_, by simp [hfree, Ne.symm hq.2]⟩
  rw [string?, if_pos (by simpa using hc), hjoin]
  rfl

/-! ## Numbers -/

theorem isDigit_of_isAlphanum (h : c.isAlphanum = false) : c.isDigit = false := by
  simp only [Char.isAlphanum, Bool.or_eq_false_iff] at h
  exact h.2

theorem isOctalDigit_of_isAlphanum (h : c.isAlphanum = false) : isOctalDigit c = false := by
  have hd := isDigit_of_isAlphanum h
  simp only [Char.isDigit, isOctalDigit, Char.le_def] at hd ⊢
  rw [Bool.eq_false_iff] at hd ⊢
  simp only [ne_eq, Bool.and_eq_true, decide_eq_true_eq, not_and] at hd ⊢
  intro h0 h7
  exact hd h0 (UInt32.le_trans h7 (by decide))

theorem isAlpha_eq (c : Char) : c.isAlpha = (c.isUpper || c.isLower) := rfl

theorem isUpper_eq (c : Char) : c.isUpper = decide ('A'.val ≤ c.val ∧ c.val ≤ 'Z'.val) := rfl

theorem isLower_eq (c : Char) : c.isLower = (decide ('a'.val ≤ c.val) && decide (c.val ≤ 'z'.val)) := rfl

theorem isHexDigit_of_isAlphanum (h : c.isAlphanum = false) : isHexDigit c = false := by
  have hd := isDigit_of_isAlphanum h
  simp only [Char.isAlphanum, isAlpha_eq, Bool.or_eq_false_iff] at h
  obtain ⟨⟨hu, hl⟩, -⟩ := h
  rw [isUpper_eq] at hu
  rw [isLower_eq] at hl
  rw [Bool.eq_false_iff] at hu hl
  simp only [isHexDigit, hd, Char.le_def, Bool.false_or, Bool.or_eq_false_iff]
  constructor
  · rw [Bool.eq_false_iff]
    simp only [ne_eq, Bool.and_eq_true, decide_eq_true_eq, not_and] at hl ⊢
    intro h0 h7
    exact hl h0 (UInt32.le_trans h7 (by decide))
  · rw [Bool.eq_false_iff]
    simp only [ne_eq, Bool.and_eq_true, decide_eq_true_eq, not_and] at hu ⊢
    intro h0 h7
    exact hu h0 (UInt32.le_trans h7 (by decide))

theorem Clear.noDigit (h : Clear x) : ∀ c ∈ x.head?, c.isDigit = false :=
  fun c hc => isDigit_of_isAlphanum (h c hc)

theorem exponent_of_clear (h : Clear x) : exponent x = 0 := by
  unfold exponent
  split
  · next e c s =>
    rw [if_neg]
    intro he
    have hc := h e rfl
    simp only [Bool.or_eq_true, decide_eq_true_eq] at he
    rcases he with rfl | rfl <;> cases hc
  · rfl

/-- What an exponent begins with. -/
theorem head_of_exponent (h : exponent s ≠ 0) : ∃ e c r, s = e :: c :: r ∧ (e = 'e' ∨ e = 'E') := by
  unfold exponent at h
  split at h
  · next e c r =>
    split at h
    · next he => exact ⟨e, c, r, rfl, by simpa using he⟩
    · exact absurd rfl h
  · exact absurd rfl h

theorem exponent_le (s : List Char) : exponent s ≤ s.length := by
  unfold exponent
  split
  · next e c s =>
    have h1 := run_le Char.isDigit s
    have h2 := run_le Char.isDigit (c :: s)
    simp only [length_cons] at *
    split
    · split
      · split <;> omega
      · split <;> omega
    · exact Nat.zero_le _
  · exact Nat.zero_le _

theorem exponent_take (s : List Char) (hx : Clear x) : exponent (s.take (exponent s) ++ x) = exponent s := by
  by_cases h0 : exponent s = 0
  · rw [h0, take_zero, nil_append, exponent_of_clear hx]
  obtain ⟨e, c, r, rfl, he⟩ := head_of_exponent h0
  have he' : e = 'e' || e = 'E' := by simpa using he
  unfold exponent at h0 ⊢
  by_cases hc : (c = '+' || c = '-')
  · simp only [he', hc, if_true] at h0 ⊢
    split at h0
    · exact absurd rfl h0
    · next hn =>
      simp only [hn, if_false, take_succ_cons, cons_append, he', hc, if_true, run_take Char.isDigit r hx.noDigit]
  · simp only [he', hc, if_true, if_false, Bool.false_eq_true] at h0 ⊢
    split at h0
    · exact absurd rfl h0
    · next hn =>
      have hrun := run_take Char.isDigit (c :: r) hx.noDigit
      obtain ⟨m, hm⟩ : ∃ m, run Char.isDigit (c :: r) = m + 1 := ⟨_, (Nat.succ_pred_eq_of_ne_zero hn).symm⟩
      rw [hm, take_succ_cons, cons_append] at hrun
      simp only [hm, if_neg (Nat.succ_ne_zero m), take_succ_cons, cons_append, he', hc, if_true,
        if_false, hrun, Bool.false_eq_true]

theorem head_ne_of_ne_cons (h : ∀ r, s ≠ c :: r) : s.head? ≠ some c := by
  intro hs
  cases s with
  | nil => cases hs
  | cons d r => exact h r (by rw [some.inj hs])

/-- The length of a point and the digits after it, zero if there is no point. -/
def fraction : List Char → Nat
  | '.' :: r => 1 + run Char.isDigit r
  | _ => 0

theorem fraction_eq_zero_iff : fraction s = 0 ↔ s.head? ≠ some '.' := by
  unfold fraction
  split
  · simp
  · next h => exact ⟨fun _ => head_ne_of_ne_cons h, fun _ => rfl⟩

theorem decimal?_eq (s : List Char) :
    decimal? s = if whole s = 0 ∧ fraction (s.drop (whole s)) ≤ 1 then none else some (whole s + fraction (s.drop (whole s)) +
        exponent (s.drop (whole s + fraction (s.drop (whole s))))) := by
  unfold decimal?
  rw [← drop_drop]
  generalize whole s = w
  generalize s.drop w = t
  split
  · next r =>
    rw [fraction, Nat.add_comm 1, drop_succ_cons]
    by_cases hn : run Char.isDigit r = 0
    · simp [hn]
    · rw [if_neg hn, if_neg (by omega)]
      congr 1
      omega
  · next hr =>
    rw [fraction_eq_zero_iff.2 (head_ne_of_ne_cons hr), if_pos ⟨rfl, by omega⟩]
  · next r hw =>
    have hw' : w ≠ 0 := hw
    rw [fraction, Nat.add_comm 1, drop_succ_cons, if_neg (by omega)]
    simp only [some.injEq]
    omega
  · next hw hr _ =>
    have hw' : w ≠ 0 := hw
    rw [fraction_eq_zero_iff.2 (head_ne_of_ne_cons hr), if_neg (by omega)]
    rfl

theorem whole_of_head (h : s.head? ≠ some '0') : whole s = run Char.isDigit s := by
  unfold whole
  split
  · exact absurd rfl h
  · rfl

theorem whole_le (s : List Char) : whole s ≤ s.length := by
  unfold whole
  split
  · simp
  · exact run_le _ _

theorem fraction_le (s : List Char) : fraction s ≤ s.length := by
  unfold fraction
  split
  · next r =>
    have := run_le Char.isDigit r
    simp only [length_cons]
    omega
  · exact Nat.zero_le _

theorem decimal?_le (h : decimal? s = some n) : n ≤ s.length := by
  rw [decimal?_eq] at h
  split at h
  · cases h
  · cases h
    have hw := whole_le s
    have hf := fraction_le (s.drop (whole s))
    have he := exponent_le (s.drop (whole s + fraction (s.drop (whole s))))
    rw [length_drop] at hf he
    omega

theorem number?_le (h : number? s = some n) : n ≤ s.length := by
  unfold number? at h
  split at h
  · next c r =>
    have hhex := run_le isHexDigit r
    have hoct := run_le isOctalDigit (c :: r)
    simp only [length_cons] at *
    split at h
    · cases h
      omega
    · split at h
      · cases h
        omega
      · exact decimal?_le h
  · exact decimal?_le h

theorem whole_take (s : List Char) (hy : ∀ c ∈ y.head?, c.isDigit = false) : whole (s.take (whole s) ++ y) = whole s := by
  by_cases h : s.head? = some '0'
  · obtain ⟨r, rfl⟩ := head?_eq_some_iff.1 h
    rfl
  · have hy0 : y.head? ≠ some '0' := fun h0 => by
      have := hy '0' h0
      cases this
    have hhead : (s.take (run Char.isDigit s) ++ y).head? ≠ some '0' := by
      cases s with
      | nil => exact hy0
      | cons c r =>
        cases run Char.isDigit (c :: r) with
        | zero => exact hy0
        | succ m => exact h
    rw [whole_of_head h, whole_of_head hhead, run_take Char.isDigit s hy]

theorem fraction_take (s : List Char) (hy : ∀ c ∈ y.head?, c.isDigit = false)
    (hdot : fraction s = 0 → y.head? ≠ some '.') : fraction (s.take (fraction s) ++ y) = fraction s := by
  by_cases h : s.head? = some '.'
  · obtain ⟨r, rfl⟩ := head?_eq_some_iff.1 h
    rw [fraction, Nat.add_comm 1, take_succ_cons, cons_append, fraction, run_take Char.isDigit r hy, Nat.add_comm 1]
  · have h0 := fraction_eq_zero_iff.2 h
    rw [h0, take_zero, nil_append]
    exact fraction_eq_zero_iff.2 (hdot h0)

theorem decimal?_take (h : decimal? s = some n) (hx : Clear x) (hdot : x.head? = some '.' → (s.drop n).head? = some '.') :
    decimal? (s.take n ++ x) = some n := by
  rw [decimal?_eq] at h
  split at h
  · cases h
  next hsome =>
  cases h
  generalize hw : whole s = w at *
  generalize hf : fraction (s.drop w) = f at *
  generalize he : exponent (s.drop (w + f)) = e at *
  have hexp := exponent_take (s.drop (w + f)) hx
  rw [he] at hexp
  generalize hA : (s.drop (w + f)).take e ++ x = A at *
  have hAhead : (∀ c ∈ A.head?, c.isDigit = false) ∧ (f = 0 → A.head? ≠ some '.') := by
    by_cases he0 : e = 0
    · subst he0
      rw [take_zero, nil_append] at hA
      subst hA
      refine ⟨hx.noDigit, fun hf0 hd => ?_⟩
      subst hf0
      exact fraction_eq_zero_iff.1 hf (hdot hd)
    · obtain ⟨d, c, r, hd, hde⟩ := head_of_exponent (by rw [he]; exact he0 : exponent (s.drop (w + f)) ≠ 0)
      obtain ⟨e, rfl⟩ : ∃ m, e = m + 1 := ⟨e - 1, by omega⟩
      rw [hd, take_succ_cons, cons_append] at hA
      subst hA
      rcases hde with rfl | rfl <;> simp
  have hfrac := fraction_take (s.drop w) hAhead.1 (by rw [hf]; exact hAhead.2)
  rw [hf] at hfrac
  generalize hB : (s.drop w).take f ++ A = B at *
  have hBhead : ∀ c ∈ B.head?, c.isDigit = false := by
    by_cases hf0 : f = 0
    · subst hf0
      rw [take_zero, nil_append] at hB
      exact hB ▸ hAhead.1
    · have hhead : (s.drop w).head? = some '.' := by
        by_contra hne
        exact hf0 (hf ▸ fraction_eq_zero_iff.2 hne)
      obtain ⟨r, hr⟩ := head?_eq_some_iff.1 hhead
      obtain ⟨f, rfl⟩ : ∃ m, f = m + 1 := ⟨f - 1, by omega⟩
      rw [hr, take_succ_cons, cons_append] at hB
      subst hB
      simp
  have hwhole := whole_take s hBhead
  rw [hw] at hwhole
  have htake : s.take (w + f + e) ++ x = s.take w ++ B := by
    rw [take_add, append_assoc, hA, take_add, append_assoc, hB]
  have hdropB : (s.take w ++ B).drop w = B := drop_take_append (hw ▸ whole_le s) B
  have hdropA : (s.take w ++ B).drop (w + f) = A := by
    rw [← drop_drop, hdropB, ← hB, drop_take_append (hf ▸ fraction_le _)]
  rw [htake, decimal?_eq, hwhole, hdropB, hfrac, hdropA, hexp, if_neg hsome]

theorem isOctalDigit_eq_false_of_run {r : List Char} (h : run isOctalDigit (c :: r) = 0) : isOctalDigit c = false := by
  by_contra hc
  rw [run, takeWhile_cons_of_pos (by simpa using hc)] at h
  cases h

theorem number?_eq_decimal? (h : ∀ c r, s = '0' :: c :: r → (c ≠ 'x' ∧ c ≠ 'X') ∧ isOctalDigit c = false) :
    number? s = decimal? s := by
  unfold number?
  split
  · next c r =>
    obtain ⟨hx, ho⟩ := h c r rfl
    have hrun : run isOctalDigit (c :: r) = 0 := run_eq_zero (by simpa using ho)
    simp [hx, hrun]
  · rfl

/-- A zero is no whole part of a decimal number that goes on with an `x`. -/
theorem decimal?_zero_x (hc : c = 'x' ∨ c = 'X') (r : List Char) : decimal? ('0' :: c :: r) = some 1 := by
  have hw : whole ('0' :: c :: r) = 1 := rfl
  have hf : fraction (c :: r) = 0 := fraction_eq_zero_iff.2 (by rcases hc with rfl | rfl <;> simp)
  have he : exponent (c :: r) = 0 := by
    by_contra hne
    obtain ⟨e, d, t, ht, hd⟩ := head_of_exponent hne
    obtain ⟨rfl, -⟩ := cons.inj ht
    rcases hc with rfl | rfl <;> simp at hd
  simp [decimal?_eq, hw, hf, he]

/-- A number is still read where it was read if no letter or digit follows; a point may follow it only where
one did. -/
theorem number?_take (h : number? s = some n) (hx : Clear x) (hdot : x.head? = some '.' → (s.drop n).head? = some '.') :
    number? (s.take n ++ x) = some n := by
  have hpos := number?_pos h
  have hdecimal : decimal? s = some n → (∀ c r, s = '0' :: c :: r → isOctalDigit c = false) →
      number? (s.take n ++ x) = some n := by
    intro hd hoctal
    rw [number?_eq_decimal?, decimal?_take hd hx hdot]
    intro c r he
    -- the character after the zero is one of the number or the first one after it
    cases s with
    | nil => cases hd
    | cons z s =>
      obtain ⟨n, rfl⟩ : ∃ m, n = m + 1 := ⟨n - 1, by omega⟩
      rw [take_succ_cons, cons_append] at he
      obtain ⟨rfl, htail⟩ := cons.inj he
      cases n with
      | zero =>
        rw [take_zero, nil_append] at htail
        have hc := hx c (by rw [htail]; rfl)
        refine ⟨⟨?_, ?_⟩, isOctalDigit_of_isAlphanum hc⟩
        all_goals
          rintro rfl
          cases hc
      | succ n =>
        cases s with
        | nil => cases hd
        | cons d s =>
          rw [take_succ_cons, cons_append] at htail
          obtain ⟨rfl, -⟩ := cons.inj htail
          refine ⟨not_or.1 fun hc => ?_, hoctal d s rfl⟩
          rw [decimal?_zero_x hc] at hd
          cases hd
  unfold number? at h
  split at h
  · next c r =>
    simp only at h
    split at h
    · next hc =>
      cases h
      have hrun := run_take isHexDigit r fun d hd => isHexDigit_of_isAlphanum (hx d hd)
      rw [take_succ_cons, take_succ_cons, cons_append, cons_append, number?]
      simp only [hrun, hc, if_true]
    · split at h
      · next hc ho =>
        cases h
        have hrun := run_take isOctalDigit (c :: r) fun d hd => isOctalDigit_of_isAlphanum (hx d hd)
        obtain ⟨m, hm⟩ : ∃ m, run isOctalDigit (c :: r) = m + 1 := ⟨_, (Nat.succ_pred_eq_of_ne_zero ho).symm⟩
        have hx' : ¬(c = 'x' ∨ c = 'X') := by
          rintro (rfl | rfl)
          all_goals exact ho (run_eq_zero (by simp; decide))
        rw [hm, take_succ_cons, cons_append] at hrun
        rw [hm, take_succ_cons, take_succ_cons, cons_append, cons_append, number?]
        simp only [hrun, hx', Bool.and_eq_true, Bool.or_eq_true, decide_eq_true_eq, false_and, if_false]
        simp
      · next ho =>
        refine hdecimal h fun d t ht => ?_
        obtain ⟨rfl, rfl⟩ := cons.inj (cons.inj ht).2
        exact isOctalDigit_eq_false_of_run (not_not.1 ho)
  · next hs => exact hdecimal h fun d t ht => absurd ht (hs d t)

end JsMinify.Lexeme
