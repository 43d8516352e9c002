import JsMinify.Node.Compact
import JsMinify.Proofs.Lexer.Slash

/-!
# Texts that are one token

A string literal is a list of pieces between two quotes. Every piece is part of the string that the lexer reads, but for the
escape of the null character and for a backslash before a blank, a control character or a character beyond ASCII: at these no
string is read, and what stands between the quotes is read as a program (`literal_is_token_iff`).

A name begins with a letter, and further letters, digits and marks may follow in any order. The lexer takes letters beyond
ASCII at the beginning of a name only, so a name falls apart before such a letter behind a digit or a mark
(`name_is_token_iff`).
-/

namespace JsMinify

open List hiding next?
open Lexeme Lexer Along

variable {q c : Char} {s : List Char} {n : Nat} {k : TokenKind} {w : String} {t : Token}

/-- The token at the head of a text, and the only one if it fills the text. -/
theorem tokenize_head (hn : next? false w.toList = some (k, n)) (hk : k.isTrivia = false) :
    ∃ t, t.kind = k ∧ t.text.toList = joined k (w.toList.take n) ∧ (tokenize w).1.head? = some t ∧
      (n = w.toList.length → ∃ l, tokenize w = ([t], .ok (), l)) := by
  obtain ⟨t, l, htoken, hkind, htext, hrest, -, -, hplain⟩ :=
    token_exact (l := ({} : Lexer).input w) (b := []) (v := w.toList) ⟨rfl, rfl, rfl⟩ rfl nofun hn hk
  have reads : Reads (({} : Lexer).input w) ([] ++ [t]) l := Reads.nil.snoc htoken
  refine ⟨t, hkind, htext, ?_, fun hlen => ?_⟩
  · obtain ⟨fuel, hdrain⟩ := reads.drain_eq rfl
    rw [tokenize, hdrain]
    rfl
  · have hend : l.rest = [] := by rw [hrest, hlen, drop_length]
    obtain ⟨l', hnone⟩ := token_end hplain (by rw [hend]; nofun)
    exact ⟨l', reads.drain rfl hnone⟩

theorem Lexer.drainFrom_genuine {fuel : Nat} {l : Lexer} (hp : ∀ t ∈ l.pushed, t.isGenuine) :
    ∀ t ∈ (l.drainFrom fuel).1, t.isGenuine := by
  induction fuel generalizing l with
  | zero => exact forall_mem_nil _
  | succ fuel ih =>
    rw [drainFrom]
    split
    · exact forall_mem_nil _
    · exact forall_mem_nil _
    · next u l' htoken =>
      obtain ⟨hu, hpushed⟩ := token_genuine hp htoken
      exact forall_mem_cons.2 ⟨hu u rfl, ih hpushed⟩

theorem genuine_of_mem_tokenize (h : t ∈ (tokenize w).1) : t.isGenuine :=
  drainFrom_genuine (by simp [input]) t h

theorem genuine_of_tokenize {ts : List Token} {r : Except LexError Unit × Lexer} (h : tokenize w = (t :: ts, r)) :
    t.isGenuine :=
  genuine_of_mem_tokenize (w := w) (by simp [h])

/-! ## String literals -/

/-- The characters that end a line. -/
def isLineTerminator (c : Char) : Bool := c = '\n' || c = '\r' || c = '\u2028' || c = '\u2029'

/-- A piece of a string literal: a character that stands for itself, a backslash before a character, the null character, a
character by its number, or a line break that is continued. -/
inductive StringPart where
  | char (c : Char)
  | escape (c : Char)
  | nul
  | hex (a b : Char)
  | unicode (a b c d : Char)
  | continued
  deriving DecidableEq, Repr

namespace StringPart

variable {p : StringPart} {ps : List StringPart}

def chars : StringPart → List Char
  | char c => [c]
  | escape c => ['\\', c]
  | nul => ['\\', '0']
  | hex a b => ['\\', 'x', a, b]
  | unicode a b c d => ['\\', 'u', a, b, c, d]
  | continued => ['\\', '\n']

/-- The piece can stand between the quotes `q`. -/
def Fits (q : Char) : StringPart → Prop
  | char c => c ≠ q ∧ c ≠ '\\' ∧ isLineTerminator c = false
  | escape c => c.isDigit = false ∧ c ≠ 'x' ∧ c ≠ 'u' ∧ isLineTerminator c = false
  | hex a b => isHexDigit a = true ∧ isHexDigit b = true
  | unicode a b c d => isHexDigit a = true ∧ isHexDigit b = true ∧ isHexDigit c = true ∧ isHexDigit d = true
  | nul | continued => True

/-- The lexer reads no string that holds this piece. -/
def isMissed : StringPart → Bool
  | nul => true
  | escape c => c.toNat < 0x21 || 0x7e < c.toNat
  | _ => false

/-- A string literal: a quote, pieces and the quote again. No digit follows the null character. -/
structure IsLiteral (q : Char) (ps : List StringPart) : Prop where
  quote : q = '"' ∨ q = '\''
  fits : ∀ p ∈ ps, p.Fits q
  nul : ps.IsChain fun p r => p = nul → ∀ c, r = char c → c.isDigit = false

def literal (q : Char) (ps : List StringPart) : List Char := q :: (ps.flatMap chars ++ [q])

theorem isEscapable_eq (hd : c.isDigit = false) : isEscapable c = !(escape c).isMissed := by
  rw [isEscapable, hd, Bool.not_false, Bool.and_true, isMissed, Bool.not_or, ← decide_not, ← decide_not]
  simp only [Nat.not_lt]

/-- A character that means nothing else in a string is passed over. -/
theorem stringTail?_pass {p : Char → Bool} (hp : p '"' = false ∧ p '\'' = false ∧ p '\\' = false ∧ p '\n' = false ∧ p '\r' = false)
    (hq : q = '"' ∨ q = '\'') (hc : p c) (s : List Char) : stringTail? q (c :: s) = (stringTail? q s).map (· + 1) := by
  have hne : ∀ d, p d = false → c ≠ d := by
    rintro d hd rfl
    rw [hc] at hd
    cases hd
  obtain ⟨hdouble, hsingle, hslash, hfeed, hreturn⟩ := hp
  have hquote : c ≠ q := by rcases hq with rfl | rfl <;> exact hne _ (by assumption)
  rw [stringTail?_cons (hne _ hslash), if_neg hquote, if_neg (by simp [hne _ hslash, hne _ hfeed, hne _ hreturn])]

/-- A piece is passed over on the way to the closing quote, or the string ends at it. -/
theorem stringTail?_chars (hq : q = '"' ∨ q = '\'') (hp : p.Fits q) (s : List Char) : stringTail? q (p.chars ++ s) =
    if p.isMissed then none else (stringTail? q s).map (· + p.chars.length) := by
  have pass {a : Char} (ha : isHexDigit a) := stringTail?_pass (by decide) hq ha
  cases p with
  | char c =>
    obtain ⟨hquote, hslash, hline⟩ := hp
    simp only [isLineTerminator, Bool.or_eq_false_iff, decide_eq_false_iff_not] at hline
    rw [chars, singleton_append, stringTail?_cons hslash, if_neg hquote, if_neg (by simp [hslash, hline])]
    rfl
  | escape c =>
    obtain ⟨hdigit, -, -, hline⟩ := hp
    simp only [isLineTerminator, Bool.or_eq_false_iff, decide_eq_false_iff_not] at hline
    rw [chars, cons_append, singleton_append, stringTail?, isEscapable_eq hdigit]
    cases (escape c).isMissed <;> simp [hline.1.1.1]
  | nul => rfl
  | hex a b =>
    obtain ⟨ha, hb⟩ := hp
    simp only [chars, cons_append, nil_append, stringTail?, pass ha, pass hb]
    simp [isMissed, show isEscapable 'x' = true by decide, Option.map_map, Function.comp_def]
  | unicode a b c d =>
    obtain ⟨ha, hb, hc, hd⟩ := hp
    simp only [chars, cons_append, nil_append, stringTail?, pass ha, pass hb, pass hc, pass hd]
    simp [isMissed, show isEscapable 'u' = true by decide, Option.map_map, Function.comp_def]
  | continued => rfl

theorem string?_literal (hq : q = '"' ∨ q = '\'') (hps : ∀ p ∈ ps, p.Fits q) :
    string? (literal q ps) = if ps.any isMissed then none else some (literal q ps).length := by
  have htail : stringTail? q (ps.flatMap chars ++ [q]) =
      if ps.any isMissed then none else some ((ps.flatMap chars).length + 1) := by
    induction ps with
    | nil =>
      have hslash : q ≠ '\\' := by rcases hq with rfl | rfl <;> decide
      rw [flatMap_nil, nil_append, stringTail?_cons hslash, if_pos rfl]
      rfl
    | cons p ps ih =>
      rw [flatMap_cons, append_assoc, stringTail?_chars hq (hps p (by simp)),
        ih fun r hr => hps r (mem_cons_of_mem p hr), any_cons]
      cases p.isMissed <;> cases ps.any isMissed <;> simp [Nat.add_comm, Nat.add_left_comm]
  rw [literal, string?, if_pos (by simpa using hq), htail]
  cases ps.any isMissed <;> simp

theorem head_ne_break (hq : q = '"' ∨ q = '\'') (hps : ∀ p ∈ ps, p.Fits q) : (ps.flatMap chars ++ [q]).head? ≠ some '\n' := by
  cases ps with
  | nil => rcases hq with rfl | rfl <;> decide
  | cons p ps =>
    have hp := hps p (by simp)
    rw [flatMap_cons]
    cases p with
    | char c =>
      rintro h
      cases h
      exact absurd hp.2.2 (by decide)
    | _ => nofun

theorem break_not_mem_chars (hp : p.Fits q) (hne : p ≠ continued) : '\n' ∉ p.chars := by
  have hhex : ∀ {c : Char}, isHexDigit c → '\n' ≠ c := by
    rintro _ hc rfl
    cases hc
  have hline : ∀ {c : Char}, isLineTerminator c = false → '\n' ≠ c := by
    rintro _ hc rfl
    cases hc
  cases p with
  | char c => simpa [chars] using hline hp.2.2
  | escape c => simpa [chars] using hline hp.2.2.2
  | nul => decide
  | hex a b => simpa [chars] using ⟨hhex hp.1, hhex hp.2⟩
  | unicode a b c d => simpa [chars] using ⟨hhex hp.1, hhex hp.2.1, hhex hp.2.2.1, hhex hp.2.2.2⟩
  | continued => exact absurd rfl hne

theorem joinLines_append {u : List Char} (hu : '\n' ∉ u) (hs : s.head? ≠ some '\n') :
    joinLines (u ++ s) = u ++ joinLines s := by
  induction u with
  | nil => rfl
  | cons c u ih =>
    obtain ⟨-, hu⟩ := not_or.1 (mt mem_cons.2 hu)
    rw [cons_append, joinLines_cons, ih hu, cons_append]
    intro _ hhead
    cases u with
    | nil => exact hs hhead
    | cons d u => exact hu (mem_of_mem_head? hhead)

/-- The continued line breaks are what is joined. -/
theorem joinLines_literal (hq : q = '"' ∨ q = '\'') (hps : ∀ p ∈ ps, p.Fits q) :
    joinLines (literal q ps) = literal q (ps.filter (· ≠ continued)) := by
  have hquote : q ≠ '\\' := by rcases hq with rfl | rfl <;> decide
  rw [literal, joinLines_cons fun h => absurd h hquote, literal]
  congr 1
  induction ps with
  | nil => exact joinLines_cons fun h => absurd h hquote
  | cons p ps ih =>
    have hfits : ∀ r ∈ ps, r.Fits q := fun r hr => hps r (mem_cons_of_mem p hr)
    rw [flatMap_cons, append_assoc, filter_cons]
    by_cases hp : p = continued
    · subst hp
      exact ih hfits
    · rw [joinLines_append (break_not_mem_chars (hps p (by simp)) hp) (head_ne_break hq hfits), ih hfits,
        if_pos (by simpa using hp), flatMap_cons, append_assoc]

/-- A string literal alone is one string, with its continued lines joined, exactly if no piece of it is missed. -/
theorem literal_is_token_iff (h : IsLiteral q ps) :
    (∃ t l, tokenize (String.ofList (literal q ps)) = ([t], .ok (), l) ∧ t.kind = .string ∧
      t.text = String.ofList (literal q (ps.filter (· ≠ continued)))) ↔ ∀ p ∈ ps, p.isMissed = false := by
  constructor
  · rintro ⟨t, l, hrun, hkind, htext⟩ p hp
    -- A token that is a string still is one when its lines are joined.
    have hgenuine := genuine_of_tokenize hrun
    have hfits : ∀ r ∈ ps.filter (· ≠ continued), r.Fits q := fun r hr => h.fits r (List.mem_of_mem_filter hr)
    have hstring := string?_literal h.quote hfits
    simp only [Token.isGenuine, hkind, htext, String.toList_ofList, isWhole, hstring, Bool.and_eq_true] at hgenuine
    cases hmissed : (ps.filter (· ≠ continued)).any isMissed with
    | true =>
      rw [hmissed] at hgenuine
      cases hgenuine.1
    | false =>
      by_cases hcont : p = continued
      · rw [hcont]
        rfl
      · simpa using List.any_eq_false.1 hmissed p (by simp [hp, hcont])
  · intro hnone
    have hany : ps.any isMissed = false := List.any_eq_false.2 fun p hp => by simp [hnone p hp]
    have hstring := string?_literal h.quote h.fits
    rw [hany, if_neg Bool.false_ne_true] at hstring
    have hslash : opensSlash (literal q ps) = false := opensSlash_eq_false (by rcases h.quote with rfl | rfl <;> simp [literal])
    obtain ⟨t, hkind, htext, -, hrun⟩ := tokenize_head (w := String.ofList (literal q ps)) (k := .string)
      (n := (literal q ps).length) (by rw [String.toList_ofList, next?, hslash]; exact rule?_string hstring) rfl
    rw [String.toList_ofList] at htext hrun
    obtain ⟨l, hrun⟩ := hrun rfl
    refine ⟨t, l, hrun, hkind, ?_⟩
    rw [← String.toList_inj, htext, String.toList_ofList, List.take_length, Lexer.joined, if_pos rfl, joinLines_literal h.quote h.fits]

/-- The null character is not read as part of a string: both quotes are reported, and the rest is a number. -/
theorem null_char_missed : IsLiteral '\'' [nul] ∧ (tokenize "'\\0'").1 = [⟨.number, "0", 1, 2⟩] ∧
    ¬∃ t l, tokenize (String.ofList (literal '\'' [nul])) = ([t], .ok (), l) ∧ t.kind = .string ∧
      t.text = String.ofList (literal '\'' ([nul].filter (· ≠ continued))) := by
  have hlit : IsLiteral '\'' [nul] := ⟨.inr rfl, by simp [Fits], by simp⟩
  exact ⟨hlit, by decide, fun h => absurd ((literal_is_token_iff hlit).1 h nul (by simp)) (by decide)⟩

end StringPart

/-! ## Names -/

theorem drop_run (p : Char → Bool) (s : List Char) : s.drop (run p s) = s.dropWhile p := by
  rw [run]
  nth_rewrite 2 [← takeWhile_append_dropWhile (p := p) (l := s)]
  exact drop_left

/-- A name goes up to the first letter beyond ASCII behind its leading letters. -/
theorem name?_eq_length_iff (h : name? s = some n) : n = s.length ↔ ∀ d ∈ s.dropWhile isNameStart, isNamePart d := by
  obtain ⟨-, rfl⟩ := name?_eq h
  have hlen := congrArg List.length (takeWhile_append_dropWhile (p := isNameStart) (l := s))
  rw [length_append] at hlen
  rw [drop_run, ← takeWhile_eq_self_iff]
  constructor
  · intro hall
    refine (List.takeWhile_prefix isNamePart).eq_of_length ?_
    unfold run at hall
    omega
  · intro hall
    rw [run, run, hall, hlen]

theorem reserved_letters : ∀ e ∈ TokenKind.reserved, ∀ c ∈ e.1.toList, isNameStart c := by decide

theorem isNameStart_of_reserved {k : TokenKind} (h : TokenKind.reserved.lookup w = some k) : ∀ c ∈ w.toList, isNameStart c := by
  obtain ⟨l₁, l₂, hs, -⟩ := List.lookup_eq_some_iff.1 h
  exact reserved_letters (w, k) (by simp [hs])

/-- A text begins with a letter and goes on with letters, digits and marks of names. Alone it is one token, a name or a
reserved word, exactly if no letter beyond ASCII stands behind a character that cannot begin a name. The same texts are
taken for names where a member is named in brackets, but for the reserved words. -/
theorem name_is_token_iff {cs : List Char} (text : w.toList = c :: cs) (start : isNameStart c = true)
    (parts : ∀ d ∈ cs, isNameChar d = true) :
    ((∃ t l, tokenize w = ([t], .ok (), l) ∧ t.text = w ∧ t.kind = TokenKind.ofWord w) ↔
      ∀ d ∈ w.toList.dropWhile isNameStart, isNamePart d = true) ∧
    ((isIdentifier w = true ↔ TokenKind.reserved.lookup w = none) ↔
      ∀ d ∈ w.toList.dropWhile isNameStart, isNamePart d = true) := by
  have hall : ∀ d ∈ w.toList, isNameChar d = true := by
    rw [text]
    exact List.forall_mem_cons.2 ⟨by rw [isNameChar, start, Bool.true_or], parts⟩
  obtain ⟨n, hname⟩ : ∃ n, name? w.toList = some n := by
    have hrun : run isNameStart w.toList ≠ 0 := by simp [run, text, start]
    exact ⟨_, if_neg hrun⟩
  have hrule := rule?_word hname (accessor?_of_isNameChar hall "get") (accessor?_of_isNameChar hall "set")
  have hslash : opensSlash w.toList = false := opensSlash_eq_false fun hhead => by
    rw [text, List.head?_cons] at hhead
    cases hhead
    cases start
  rw [← name?_eq_length_iff hname]
  constructor
  · obtain ⟨t, hkind, htext, hhead, hrun⟩ := tokenize_head (by rw [next?, hslash]; exact hrule) (ofWord_solid _)
    have hplain : ∀ word, TokenKind.ofWord word ≠ .string := fun word h => ofWord_plain word (by simp [h])
    rw [Lexer.joined, if_neg (hplain _)] at htext
    constructor
    · rintro ⟨u, l, htokens, hu, -⟩
      rw [htokens] at hhead
      cases hhead
      rw [hu] at htext
      exact Nat.le_antisymm (name?_le hname) (htext ▸ List.length_take_le n w.toList)
    · intro hlen
      obtain ⟨l, htokens⟩ := hrun hlen
      rw [hlen, List.take_length] at htext hkind
      exact ⟨t, l, htokens, String.toList_inj.1 htext, by rw [hkind, String.ofList_toList]⟩
  · have hend : isIdentifier w = (decide (w.toList.drop n = []) && (TokenKind.reserved.lookup w).isNone) := by
      have hbreak : w.toList.drop n ≠ ['\n'] := fun hdrop => by
        have hc := hall '\n' (List.mem_of_mem_drop (i := n) (by simp [hdrop]))
        cases hc
      simp [isIdentifier, hname, hbreak]
    have hreserved : TokenKind.reserved.lookup w ≠ none → n = w.toList.length := fun hne => by
      obtain ⟨k, hk⟩ := Option.ne_none_iff_exists'.1 hne
      refine (name?_eq_length_iff hname).2 ?_
      rw [List.dropWhile_eq_nil_iff.2 (isNameStart_of_reserved hk)]
      exact List.forall_mem_nil _
    have hle := name?_le hname
    rw [hend]
    by_cases hlen : n = w.toList.length
    · simp [hlen]
    · have hrest : ¬w.toList.length ≤ n := by omega
      simp [hlen, hrest, not_imp_comm.1 hreserved hlen]

/-- A letter beyond ASCII behind a digit begins a name of its own. -/
theorem name_broken_before_letter : (tokenize "a1é").1 = [⟨.identifier, "a1", 1, 0⟩, ⟨.identifier, "é", 1, 2⟩] ∧
      (¬∃ t l, tokenize "a1é" = ([t], .ok (), l) ∧ t.text = "a1é" ∧ t.kind = TokenKind.ofWord "a1é") ∧
      ¬(isIdentifier "a1é" = true ↔ TokenKind.reserved.lookup "a1é" = none) := by
  have h := name_is_token_iff (show "a1é".toList = ['a', '1', 'é'] by decide) (by decide) (List.all_eq_true.1 (by decide))
  have hbroken : ¬∀ d ∈ "a1é".toList.dropWhile isNameStart, isNamePart d = true :=
    fun hall => absurd (hall 'é' (by decide)) (by decide)
  exact ⟨by decide, mt h.1.1 hbroken, mt h.2.1 hbroken⟩

end JsMinify
