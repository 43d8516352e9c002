import JsMinify.Proofs.Lexer.Account
import JsMinify.Proofs.Lexer.Lookahead
import Mathlib.Data.List.Find

/-!
# Lexemes and the blanks behind them

A text goes on with `r`, the blanks `w` and the text `b`, and `w` is exchanged for other blanks `w'`. A lexeme at the
head of the text that ended before the blanks still ends there, and one that reached across them still ends at the
same place behind them (`Moved`). `rule?_exchanged` says this of all forms. The only lexemes that can tell `w` from `w'` are the
words `get` and `set` right before them, which look for a name behind a single blank (`rule?_word_before`).
-/

namespace JsMinify.Lexeme

open List TokenKind Text Option Bool Lexer

/-- Spaces and tabs, at least one of them. -/
structure Blanks (w : List Char) : Prop where
  ne_nil : w ≠ []
  blank : ∀ c ∈ w, Lexer.isBlank c = true

variable {c : Char} {w x : List Char} {p : Char → Bool}

theorem eq_of_isBlank (h : isBlank c) : c = ' ' ∨ c = '\t' := by
  simpa [isBlank] using h

variable {d : Char}

theorem ne_of_isBlank (h : isBlank c) (hd : isBlank d = false) : c ≠ d := by
  rintro rfl
  rw [h] at hd
  cases hd

theorem isBlank_stops (hspace : p ' ' = false) (htab : p '\t' = false) (h : isBlank c) : p c = false := by
  rcases eq_of_isBlank h with rfl | rfl
  · exact hspace
  · exact htab

theorem Blanks.exists_cons (h : Blanks w) : ∃ c u, w = c :: u ∧ isBlank c ∧ ∀ d ∈ u, isBlank d := by
  obtain ⟨c, u, rfl⟩ := exists_cons_of_ne_nil h.ne_nil
  exact ⟨c, u, rfl, h.blank c (by simp), fun d hd => h.blank d (by simp [hd])⟩

theorem Blanks.length_pos (h : Blanks w) : 0 < w.length := length_pos_of_ne_nil h.ne_nil

/-- What no blank continues ends before blanks. -/
theorem Blanks.stops (h : Blanks w) (hspace : p ' ' = false) (htab : p '\t' = false)
    (b : List Char) : ∀ c ∈ (w ++ b).head?, p c = false := by
  obtain ⟨d, u, rfl, hd, -⟩ := h.exists_cons
  intro c hc
  rw [← some.inj hc]
  exact isBlank_stops hspace htab hd

/-- Two characters at the head of a text stand before its blanks if the second one is no blank. -/
theorem Blanks.pair_before {r b s : List Char} (h : Blanks w) (hr : r ≠ []) (hd : isBlank d = false)
    (hs : r ++ (w ++ b) = c :: d :: s) : ∃ r', r = c :: d :: r' := by
  obtain ⟨e, r, rfl⟩ := exists_cons_of_ne_nil hr
  obtain ⟨rfl, hnext⟩ := cons.inj hs
  cases r with
  | nil =>
    obtain ⟨f, u, rfl, hf, -⟩ := h.exists_cons
    exact absurd (cons.inj hnext).1 (ne_of_isBlank hf hd)
  | cons f r => exact ⟨r, by rw [(cons.inj hnext).1]⟩

/-- Where a lexeme ends that stands at the head of `r`, before the blanks `w` and `w'`. -/
inductive Moved (r w w' : List Char) : Option Nat → Option Nat → Prop where
  | none : Moved r w w' none none
  | before {n : Nat} (le : n ≤ r.length) : Moved r w w' (some n) (some n)
  | across (n : Nat) : Moved r w w' (some (r.length + w.length + n)) (some (r.length + w'.length + n))

namespace Moved

variable {r w' : List Char} {o o' : Option Nat}

theorem cons (h : Moved r w w' o o') (c : Char) : Moved (c :: r) w w' (o.map (· + 1)) (o'.map (· + 1)) := by
  cases h with
  | none => exact .none
  | before le => exact .before (Nat.succ_le_succ le)
  | across n =>
    have hlen : ∀ x : List Char, r.length + x.length + n + 1 = (c :: r).length + x.length + n := by
      intro x
      rw [length_cons]
      omega
    rw [map_some, map_some, hlen w, hlen w']
    exact .across n

theorem pair (h : Moved r w w' o o') (c d : Char) : Moved (c :: d :: r) w w' (o.map (· + 2)) (o'.map (· + 2)) := by
  have hmoved := (h.cons d).cons c
  simp only [Option.map_map] at hmoved
  exact hmoved

theorem nil (o : Option Nat) : Moved [] w w' (o.map (· + w.length)) (o.map (· + w'.length)) := by
  cases o with
  | none => exact .none
  | some n =>
    have hlen : ∀ x : List Char, n + x.length = ([] : List Char).length + x.length + n := by
      intro x
      rw [length_nil]
      omega
    rw [map_some, map_some, hlen w, hlen w']
    exact .across n

/-- A lexeme that ends before the blanks. -/
theorem same (h : ∀ n, o = some n → n ≤ r.length) : Moved r w w' o o := by
  cases o with
  | none => exact .none
  | some n => exact .before (h n rfl)

end Moved

theorem punctuators_no_blank : ∀ p ∈ punctuators, p.1.toList.all (!Lexer.isBlank ·) := by decide

section

variable {w' : List Char} (hw : Blanks w) (hw' : Blanks w') (r b : List Char) {q : Char} {word : String}

/-! ## Strings, comments and regular expressions -/

theorem stringTail?_blank (hq : isBlank q = false) (s : List Char) (hc : isBlank c) :
    stringTail? q (c :: s) = (stringTail? q s).map (· + 1) := by
  have hend : (c = '\\' || c = '\n' || c = '\r') = false :=
    isBlank_stops (p := fun c => c = '\\' || c = '\n' || c = '\r') rfl rfl hc
  rw [stringTail?_cons (ne_of_isBlank hc rfl), if_neg (ne_of_isBlank hc hq), if_neg (by simp [hend])]

theorem blockTail?_blank (s : List Char) (hc : isBlank c) : blockTail? (c :: s) = (blockTail? s).map (· + 1) := by
  rw [blockTail?]
  intro r hstar
  exact absurd hstar (ne_of_isBlank hc rfl)

theorem regexTail?_blank (inClass : Bool) (s : List Char) (hc : isBlank c) :
    regexTail? inClass (c :: s) = (regexTail? inClass s).map (· + 1) := by
  have hopen : (c == '[') = false := by simpa using ne_of_isBlank hc (d := '[') rfl
  have hclose : c != ']' := by simpa using ne_of_isBlank hc (d := ']') rfl
  rw [regexTail?_cons (ne_of_isBlank hc rfl), if_neg (ne_of_isBlank hc rfl),
    if_neg (ne_of_isBlank hc (d := '/') rfl), hopen, hclose]
  cases inClass <;> rfl

/-- A search that passes over a blank passes over all of them. -/
theorem passes_blanks {f : List Char → Option Nat} (hf : ∀ {c} s, isBlank c → f (c :: s) = (f s).map (· + 1))
    (hx : ∀ c ∈ x, isBlank c) (s : List Char) : f (x ++ s) = (f s).map (· + x.length) := by
  induction x with
  | nil => simp
  | cons c x ih =>
    obtain ⟨hc, hx⟩ := forall_mem_cons.1 hx
    rw [cons_append, hf _ hc, ih hx]
    simp [Function.comp_def, Nat.add_assoc]

include hw hw'

theorem moved_blanks {f : List Char → Option Nat} (hf : ∀ {c} s, isBlank c → f (c :: s) = (f s).map (· + 1)) :
    Moved [] w w' (f (w ++ b)) (f (w' ++ b)) := by
  rw [passes_blanks hf hw.blank, passes_blanks hf hw'.blank]
  exact .nil _

/-- A run that goes on over blanks. -/
theorem run_moved (hspace : p ' ') (htab : p '\t') :
    Moved r w w' (some (run p (r ++ (w ++ b)))) (some (run p (r ++ (w' ++ b)))) := by
  have hblank : ∀ {c : Char}, isBlank c → p c := by
    intro c hc
    rcases eq_of_isBlank hc with rfl | rfl
    · exact hspace
    · exact htab
  induction r with
  | nil =>
    rw [nil_append, nil_append, run_append fun c hc => hblank (hw.blank c hc),
      run_append fun c hc => hblank (hw'.blank c hc), Nat.add_comm, Nat.add_comm w'.length]
    exact .nil (some (run p b))
  | cons c r ih =>
    rw [cons_append, cons_append]
    cases hc : p c with
    | true =>
      rw [run_cons hc, run_cons hc]
      exact ih.cons c
    | false =>
      have hzero : ∀ s, run p (c :: s) = 0 := fun s => run_eq_zero (by simpa using hc)
      rw [hzero, hzero]
      exact .before (Nat.zero_le _)

theorem stringTail?_moved (hq : q ≠ '\\' ∧ isBlank q = false) :
    Moved r w w' (stringTail? q (r ++ (w ++ b))) (stringTail? q (r ++ (w' ++ b))) := by
  fun_induction stringTail? q r with
  | case1 => exact moved_blanks hw hw' b (stringTail?_blank hq.2)
  | case2 c r hc ih =>
    simp only [cons_append, stringTail?, if_pos hc]
    exact ih.pair '\\' c
  | case3 c r hc =>
    simp only [cons_append, stringTail?, if_neg hc]
    exact .none
  | case4 r hr =>
    rw [cons_append, cons_append, stringTail?_cons hq.1, stringTail?_cons hq.1, if_pos rfl, if_pos rfl]
    exact .before (by simp)
  | case5 c r hr hne hc =>
    by_cases hback : c = '\\'
    · -- A backslash at the end of `r` stands before a blank.
      obtain rfl : r = [] := by
        cases r with
        | nil => rfl
        | cons e s => exact absurd rfl (hr e s hback)
      have hnone : ∀ {x : List Char}, Blanks x → stringTail? q ('\\' :: (x ++ b)) = none := by
        intro x hx
        obtain ⟨d, u, rfl, hd, -⟩ := hx.exists_cons
        have hend : (d = '\n' || isEscapable d) = false :=
          isBlank_stops (p := fun d => d = '\n' || isEscapable d) (by decide) (by decide) hd
        rw [cons_append, stringTail?, if_neg (by simp [hend])]
      rw [hback, singleton_append, singleton_append, hnone hw, hnone hw']
      exact .none
    · rw [cons_append, cons_append, stringTail?_cons hback, stringTail?_cons hback, if_neg hne, if_neg hne,
        if_pos hc, if_pos hc]
      exact .none
  | case6 c r hr hne hc ih =>
    have hback : c ≠ '\\' := by
      rintro rfl
      simp at hc
    rw [cons_append, cons_append, stringTail?_cons hback, stringTail?_cons hback, if_neg hne, if_neg hne, if_neg hc, if_neg hc]
    exact ih.cons c

theorem string?_moved (hr : r ≠ []) : Moved r w w' (string? (r ++ (w ++ b))) (string? (r ++ (w' ++ b))) := by
  obtain ⟨c, r, rfl⟩ := exists_cons_of_ne_nil hr
  rw [cons_append, cons_append, string?, string?]
  split
  · next hc =>
    have hquote : c ≠ '\\' ∧ isBlank c = false := by
      rcases (by simpa using hc : c = '"' ∨ c = '\'') with rfl | rfl
      · exact ⟨by decide, rfl⟩
      · exact ⟨by decide, rfl⟩
    exact (stringTail?_moved hw hw' r b hquote).cons c
  · exact .none

theorem blockTail?_moved : Moved r w w' (blockTail? (r ++ (w ++ b))) (blockTail? (r ++ (w' ++ b))) := by
  fun_induction blockTail? r with
  | case1 => exact moved_blanks hw hw' b blockTail?_blank
  | case2 r =>
    simp only [cons_append, blockTail?]
    exact .before (by simp)
  | case3 c r hr ih =>
    have hopen : ∀ {x : List Char}, Blanks x → blockTail? (c :: (r ++ (x ++ b))) = (blockTail? (r ++ (x ++ b))).map (· + 1) := by
      intro x hx
      obtain ⟨d, u, rfl, hd, -⟩ := hx.exists_cons
      rw [blockTail?]
      rintro s hstar hs
      cases r with
      | nil => exact ne_of_isBlank hd rfl (cons.inj hs).1
      | cons e r => exact hr r hstar (by rw [(cons.inj hs).1])
    rw [cons_append, cons_append, hopen hw, hopen hw']
    exact ih.cons c

theorem blockComment?_moved (hr : r ≠ []) :
    Moved r w w' (blockComment? (r ++ (w ++ b))) (blockComment? (r ++ (w' ++ b))) := by
  by_cases hopen : ∃ r', r = '/' :: '*' :: r'
  · obtain ⟨r', rfl⟩ := hopen
    exact (blockTail?_moved hw hw' r' b).pair '/' '*'
  · have hnone : ∀ {x : List Char}, Blanks x → blockComment? (r ++ (x ++ b)) = none := fun hx =>
      blockComment?.eq_2 _ fun s hs => hopen (hx.pair_before hr rfl hs)
    rw [hnone hw, hnone hw']
    exact .none

theorem lineComment?_moved (hr : r ≠ []) : Moved r w w' (lineComment? (r ++ (w ++ b))) (lineComment? (r ++ (w' ++ b))) := by
  by_cases hopen : ∃ r', r = '/' :: '/' :: r'
  · obtain ⟨r', rfl⟩ := hopen
    simp only [cons_append, lineComment?, Nat.add_comm 2]
    exact (run_moved hw hw' r' b rfl rfl).pair '/' '/'
  · have hnone : ∀ {x : List Char}, Blanks x → lineComment? (r ++ (x ++ b)) = none := fun hx =>
      lineComment?.eq_2 _ fun s hs => hopen (hx.pair_before hr rfl hs)
    rw [hnone hw, hnone hw']
    exact .none

theorem regexTail?_moved (inClass : Bool) :
    Moved r w w' (regexTail? inClass (r ++ (w ++ b))) (regexTail? inClass (r ++ (w' ++ b))) := by
  fun_induction regexTail? inClass r with
  | case1 inClass => exact moved_blanks hw hw' b (regexTail?_blank inClass)
  | case2 =>
    simp only [cons_append, regexTail?, if_true]
    exact .none
  | case3 inClass c r hc ih =>
    simp only [cons_append, regexTail?, if_neg hc]
    exact ih.pair '\\' c
  | case4 inClass r hr =>
    -- A backslash at the end of `r` takes the first blank with it.
    obtain rfl : r = [] := by
      cases r with
      | nil => rfl
      | cons e s => exact absurd rfl (hr e s rfl)
    have htail : ∀ {x : List Char}, Blanks x →
        regexTail? inClass ('\\' :: (x ++ b)) = ((regexTail? inClass b).map (· + x.length)).map (· + 1) := by
      intro x hx
      obtain ⟨d, u, rfl, hd, hu⟩ := hx.exists_cons
      rw [cons_append, regexTail?, if_neg (ne_of_isBlank hd rfl), passes_blanks (regexTail?_blank inClass) hu]
      simp [Function.comp_def, Nat.add_assoc]
    rw [singleton_append, singleton_append, htail hw, htail hw']
    exact (Moved.nil _).cons '\\'
  | case5 c r hr hc ih =>
    rw [cons_append, cons_append, regexTail?_cons hc, regexTail?_cons hc, if_neg hc, if_neg hc, if_pos rfl, if_pos rfl]
    exact ih.cons c
  | case6 inClass r hc =>
    rw [cons_append, cons_append, regexTail?_cons (by decide), regexTail?_cons (by decide)]
    simp only [Char.reduceEq, if_false, if_neg hc, if_true]
    exact .before (by simp)
  | case7 inClass c r hr hc hclass hslash ih =>
    rw [cons_append, cons_append, regexTail?_cons hc, regexTail?_cons hc, if_neg hc, if_neg hc, if_neg hclass,
      if_neg hclass, if_neg hslash, if_neg hslash]
    exact ih.cons c

/-- The next character is the same, or a blank. -/
theorem head_exchanged (h : p ' ' = p '\t') : (r ++ (w ++ b)).head?.any p = (r ++ (w' ++ b)).head?.any p := by
  cases r with
  | nil =>
    have hblank : ∀ {c : Char}, isBlank c → p c = p ' ' := by
      intro c hc
      rcases eq_of_isBlank hc with rfl | rfl
      · rfl
      · exact h.symm
    obtain ⟨c, u, rfl, hc, -⟩ := hw.exists_cons
    obtain ⟨c', u', rfl, hc', -⟩ := hw'.exists_cons
    exact (hblank hc).trans (hblank hc').symm
  | cons c r => rfl

/-- Whether a slash opens a comment is seen before the blanks. -/
theorem opensSlash_exchanged (hr : r ≠ []) : opensSlash (r ++ (w ++ b)) = opensSlash (r ++ (w' ++ b)) := by
  obtain ⟨c, r, rfl⟩ := exists_cons_of_ne_nil hr
  by_cases hc : c = '/'
  · have hslash : ∀ s, opensSlash ('/' :: s) = s.head?.any fun d => d != '/' && d != '*' := by
      intro s
      cases s with
      | nil => rfl
      | cons d s => rfl
    rw [hc, cons_append, cons_append, hslash, hslash, head_exchanged hw hw' r b rfl]
  · rw [opensSlash_eq_false (by simpa using hc), opensSlash_eq_false (by simpa using hc)]

theorem slash?_moved : Moved r w w' (slash? (r ++ (w ++ b))) (slash? (r ++ (w' ++ b))) := by
  rw [slash?, slash?, head_exchanged hw hw' r b (by decide)]
  split
  · exact .none
  · exact regexTail?_moved hw hw' r b false

theorem regex?_moved (hr : r ≠ []) : Moved r w w' (regex? (r ++ (w ++ b))) (regex? (r ++ (w' ++ b))) := by
  obtain ⟨c, r, rfl⟩ := exists_cons_of_ne_nil hr
  rw [cons_append, cons_append]
  by_cases hc : c = '/'
  · have hmoved := slash?_moved hw hw' r b
    rw [hc, regex?_slash, regex?_slash]
    generalize slash? (r ++ (w ++ b)) = o at *
    generalize slash? (r ++ (w' ++ b)) = o' at *
    cases hmoved with
    | none => exact .none
    | @before n le =>
      have hflags : ∀ {x : List Char}, Blanks x →
          run Char.isAlphanum ((r ++ (x ++ b)).drop n) = run Char.isAlphanum (r.drop n) := fun hx => by
        rw [drop_append_of_le_length le, run_append_stop (hx.stops (by decide) (by decide) b)]
      have hle := run_le Char.isAlphanum (r.drop n)
      rw [length_drop] at hle
      rw [map_some, map_some, hflags hw, hflags hw']
      exact .before (by rw [length_cons]; omega)
    | across n =>
      have hflags : ∀ x : List Char, r.length + x.length + n + 1 +
          run Char.isAlphanum ((r ++ (x ++ b)).drop (r.length + x.length + n)) =
            ('/' :: r).length + x.length + (n + run Char.isAlphanum (b.drop n)) := by
        intro x
        rw [← drop_drop, ← drop_drop, drop_left, drop_left, length_cons]
        omega
      rw [map_some, map_some, hflags w, hflags w']
      exact .across _
  · have hnone : ∀ s, regex? (c :: s) = none := fun s => regex?.eq_2 _ fun d r h => hc (cons.inj h).1
    rw [hnone, hnone]
    exact .none

/-! ## Lexemes that hold no blank -/

section

omit hw'

theorem name?_before_blanks : name? (r ++ (w ++ b)) = name? r := by
  have hlead := run_append_stop (hw.stops (p := isNameStart) (by decide) (by decide) b) r
  simp only [name?, hlead]
  rw [drop_append_of_le_length (run_le _ r), run_append_stop (hw.stops (by decide) (by decide) b)]

theorem word?_before_blanks : word? (r ++ (w ++ b)) = word? r := by
  unfold word?
  rw [name?_before_blanks hw]
  cases hn : name? r with
  | none => rfl
  | some n => rw [map_some, map_some, take_append_of_le_length (name?_le hn)]

theorem number?_before_blanks : number? (r ++ (w ++ b)) = number? r :=
  number?_append (hw.stops (by decide) (by decide) b) r

theorem isPrefixOf_before (hx : x.all (!Lexer.isBlank ·)) : x.isPrefixOf (r ++ (w ++ b)) = x.isPrefixOf r := by
  obtain ⟨d, u, rfl, hd, -⟩ := hw.exists_cons
  induction r generalizing x with
  | nil =>
    cases x with
    | nil => rfl
    | cons c x =>
      rw [all_cons, and_eq_true, not_eq_true'] at hx
      have hne : (c == d) = false := by simpa using (ne_of_isBlank hd hx.1).symm
      simp [isPrefixOf, hne]
  | cons e r ih =>
    cases x with
    | nil => rfl
    | cons c x =>
      rw [all_cons, and_eq_true] at hx
      rw [cons_append, isPrefixOf_cons_cons, isPrefixOf_cons_cons, ih hx.2]

theorem punctuator?_before_blanks : punctuator? (r ++ (w ++ b)) = punctuator? r := by
  unfold punctuator?
  congr 1
  exact find?_congr fun p hp => isPrefixOf_before hw r b (punctuators_no_blank p hp)

omit hw in
theorem lineEnd?_append (hr : r ≠ []) (s : List Char) : lineEnd? (r ++ s) = lineEnd? r := by
  obtain ⟨c, r, rfl⟩ := exists_cons_of_ne_nil hr
  by_cases hc : c = '\n'
  · rw [hc]
    rfl
  · rw [cons_append, lineEnd?_of_head hc, lineEnd?_of_head hc]

end

/-! ## The words before a name -/

omit hw hw' in
theorem opensName_cons (c : Char) (s : List Char) :
    opensName (c :: s) = (blankRanges.contains c && s.head?.any isNameStart) := by
  cases s with
  | nil => rw [opensName.eq_2 _ (by simp)]; simp
  | cons d s => rfl

/-- Only right before the blanks, and only by their number, can one see that they were exchanged. -/
theorem opensName_exchanged (hr : r ≠ []) : opensName (r ++ (w ++ b)) = opensName (r ++ (w' ++ b)) := by
  obtain ⟨c, r, rfl⟩ := exists_cons_of_ne_nil hr
  rw [cons_append, cons_append, opensName_cons, opensName_cons, head_exchanged hw hw' r b (by decide)]

omit hw hw' in
theorem accessor?_eq (word : String) (s : List Char) : accessor? word s =
    if word.toList.isPrefixOf s && opensName (s.drop word.toList.length) then some word.toList.length else none := by
  split
  · next h =>
    obtain ⟨hstarts, hopens⟩ := and_eq_true_iff.1 h
    obtain ⟨r, rfl⟩ := isPrefixOf_iff_prefix.1 hstarts
    rw [drop_left] at hopens
    exact accessor?_eq_some_iff.2 ⟨r, rfl, hopens, rfl⟩
  · next h =>
    refine eq_none_iff_forall_ne_some.2 fun n hn => h ?_
    obtain ⟨r, rfl, hopens, -⟩ := accessor?_eq_some_iff.1 hn
    rw [drop_left, hopens, Bool.and_true]
    exact isPrefixOf_iff_prefix.2 (prefix_append _ r)

theorem accessor?_exchanged (hword : word.toList.all (!Lexer.isBlank ·))
    (h : r = word.toList → opensName (w ++ b) = opensName (w' ++ b)) :
    accessor? word (r ++ (w ++ b)) = accessor? word (r ++ (w' ++ b)) ∧
      ∀ n, accessor? word (r ++ (w ++ b)) = some n → n ≤ r.length := by
  rw [accessor?_eq, accessor?_eq, isPrefixOf_before hw r b hword, isPrefixOf_before hw' r b hword]
  by_cases hstarts : word.toList.isPrefixOf r
  · obtain ⟨r', rfl⟩ := isPrefixOf_iff_prefix.1 hstarts
    rw [append_assoc, append_assoc, drop_left, drop_left]
    have hopens : opensName (r' ++ (w ++ b)) = opensName (r' ++ (w' ++ b)) := by
      by_cases hr : r' = []
      · rw [hr] at h ⊢
        exact h (append_nil _)
      · exact opensName_exchanged hw hw' r' b hr
    rw [hopens]
    refine ⟨rfl, fun n hn => ?_⟩
    split at hn
    · cases hn
      simp
    · cases hn
  · simp [hstarts]

/-! ## All forms -/

/-- Where a lexeme of either text ends, and that it is of the same kind. -/
structure Exchanged (r w w' : List Char) (o o' : Option (TokenKind × Nat)) : Prop where
  kind : o.map (·.1) = o'.map (·.1)
  moved : Moved r w w' (o.map (·.2)) (o'.map (·.2))

namespace Exchanged

omit hw hw'

variable {o o' p p' : Option (TokenKind × Nat)} {r : List Char}

theorem of_moved {n n' : Option Nat} (h : Moved r w w' n n') (k : TokenKind) :
    Exchanged r w w' (n.map (k, ·)) (n'.map (k, ·)) := by
  cases h with
  | none => exact ⟨rfl, .none⟩
  | before le => exact ⟨rfl, .before le⟩
  | across n => exact ⟨rfl, .across n⟩

theorem of_eq (h : ∀ k n, o = some (k, n) → n ≤ r.length) : Exchanged r w w' o o := by
  refine ⟨rfl, .same fun n hn => ?_⟩
  obtain ⟨⟨k, m⟩, hm, rfl⟩ := map_eq_some_iff.1 hn
  exact h k m hm

theorem or (h : Exchanged r w w' o o') (h' : Exchanged r w w' p p') : Exchanged r w w' (o.or p) (o'.or p') := by
  cases o with
  | none =>
    obtain rfl : o' = none := by simpa using h.kind.symm
    exact h'
  | some x =>
    obtain ⟨y, rfl, -⟩ := map_eq_some_iff.1 h.kind.symm
    exact h

end Exchanged

/-- The lexeme at the head of a text does not depend on the blanks behind `r`, unless `r` is `get` or `set`. -/
theorem rule?_exchanged (hr : r ≠ []) (h : r = "get".toList ∨ r = "set".toList → opensName (w ++ b) = opensName (w' ++ b)) :
    Exchanged r w w' (rule? (r ++ (w ++ b))) (rule? (r ++ (w' ++ b))) := by
  obtain ⟨hget, hgetle⟩ := accessor?_exchanged hw hw' r b
    (show "get".toList.all (!Lexer.isBlank ·) = true by decide) fun he => h (.inl he)
  obtain ⟨hset, hsetle⟩ := accessor?_exchanged hw hw' r b
    (show "set".toList.all (!Lexer.isBlank ·) = true by decide) fun he => h (.inr he)
  simp only [rule?, orElse_eq_orElse, orElse_eq_or, word?_before_blanks hw, word?_before_blanks hw',
    number?_before_blanks hw, number?_before_blanks hw', lineEnd?_append r hr, punctuator?_before_blanks hw,
    punctuator?_before_blanks hw']
  refine .or (.of_moved (string?_moved hw hw' r b hr) _) (.or (.of_moved (hget ▸ .same hgetle) _)
    (.or (.of_moved (hset ▸ .same hsetle) _) (.or (.of_eq fun k n hn => ?_) (.or (.of_moved (.same fun _ => number?_le) _)
      (.or (.of_moved (blockComment?_moved hw hw' r b hr) _) (.or (.of_moved (lineComment?_moved hw hw' r b hr) _)
        (.or (.of_moved (.same fun n hn => ?_) _) (.of_eq fun k n hn => ?_))))))))
  · obtain ⟨m, hm, he⟩ := map_eq_some_iff.1 hn
    obtain ⟨-, rfl⟩ := Prod.mk.inj he
    exact name?_le hm
  · obtain ⟨s, rfl, rfl⟩ := lineEnd?_eq hn
    simp
  · obtain ⟨p, hp, he⟩ := map_eq_some_iff.1 hn
    obtain ⟨-, rfl⟩ := Prod.mk.inj he
    rw [← String.length_toList]
    exact (find?_punctuators hp).1.2.length_le

omit hw hw' in
/-- Whether `get` and `set` are read as words before a name depends on the blanks right behind them. -/
theorem rule?_word_before (hword : word = "get" ∨ word = "set") : ∃ k ∈ [getProp, setProp], ∀ {x : List Char}, Blanks x →
      rule? (word.toList ++ (x ++ b)) = some (if opensName (x ++ b) then k else .identifier, word.toList.length) := by
  have hplain : ∀ {x : List Char}, Blanks x → opensName (x ++ b) = false → accessor? word (word.toList ++ (x ++ b)) = none := by
    intro x hx hopens
    rw [accessor?_eq, drop_left, hopens, Bool.and_false]
    rfl
  have hname : ∀ {x : List Char}, Blanks x → (∀ c ∈ word.toList, isNameStart c) → word.toList ≠ [] →
      name? (word.toList ++ (x ++ b)) = some word.toList.length := by
    intro x hx hall hne
    obtain ⟨d, u, rfl, hd, -⟩ := hx.exists_cons
    refine name?_of_letters hne hall fun c hc => ?_
    rw [← some.inj hc]
    exact isBlank_stops (by decide) (by decide) hd
  rcases hword with rfl | rfl
  · refine ⟨.getProp, by simp, fun {x} hx => ?_⟩
    cases hopens : opensName (x ++ b) with
    | true => exact rule?_accessor (by decide) (accessor?_eq_some_iff.2 ⟨_, rfl, hopens, rfl⟩)
    | false =>
      have hset : accessor? "set" ("get".toList ++ (x ++ b)) = none := accessor?_of_head (by decide) (by decide)
      rw [rule?_word (hname hx get_isNameStart (by decide)) (hplain hx hopens) hset, take_left]
      rfl
  · refine ⟨.setProp, by simp, fun {x} hx => ?_⟩
    cases hopens : opensName (x ++ b) with
    | true => exact rule?_accessor (by decide) (accessor?_eq_some_iff.2 ⟨_, rfl, hopens, rfl⟩)
    | false =>
      have hget : accessor? "get" ("set".toList ++ (x ++ b)) = none := accessor?_of_head (by decide) (by decide)
      rw [rule?_word (hname hx set_isNameStart (by decide)) hget (hplain hx hopens), take_left]
      rfl

omit hw' in
/-- A single blank before a name is what `get` and `set` look for. -/
theorem opensName_blanks : opensName (w ++ b) = (w.length = 1 && b.head?.any isNameStart) := by
  obtain ⟨d, u, rfl, hd, hu⟩ := hw.exists_cons
  have hblank : blankRanges.contains d := by
    rcases eq_of_isBlank hd with rfl | rfl <;> decide
  rw [cons_append, opensName_cons, hblank, Bool.true_and]
  cases u with
  | nil => simp
  | cons e u => simp [isBlank_stops (p := isNameStart) (by decide) (by decide) (hu e (by simp))]

end

end JsMinify.Lexeme
