import JsMinify.Proofs.Lexer.Single
import JsMinify.Proofs.Node.Clean

/-!
# Members named in brackets

`x["name"]` is printed as `x.name` where the string holds a name and nothing else. The quotes are taken off by
dropping all quotes at both ends, however many there are. A string token ends at its first quote that stands behind no
backslash, so no quote is dropped that belongs to the name, and the name is what stands between the quotes
(`bracket_printed`).
-/

namespace JsMinify

open List hiding next?
open Lexeme Node Option TokenKind

variable {q c : Char} {r s : List Char} {n : Nat} {name : String}

/-! ## Names that stand alone -/

/-- The text alone is read as one name. -/
def IsLoneName (name : String) : Prop :=
  ∃ t l, tokenize name = ([t], .ok (), l) ∧ t.kind = .identifier ∧ t.text = name

theorem isLoneName_iff : IsLoneName name ↔ isWhole .identifier name.toList := by
  constructor
  · rintro ⟨t, l, hrun, hkind, rfl⟩
    have hgenuine := genuine_of_tokenize hrun
    rwa [Token.isGenuine, hkind] at hgenuine
  · intro h
    obtain ⟨c, r, hc, hstart⟩ := isNameStart_of_isWhole h rfl
    have hslash : opensSlash name.toList = false := opensSlash_eq_false fun hhead => by
      rw [hc, head?_cons] at hhead
      cases hhead
      cases hstart
    obtain ⟨t, hkind, htext, -, hrun⟩ := tokenize_head (w := name) (k := .identifier) (n := name.toList.length)
      (by rw [next?, hslash]; exact rule?_of_isWhole h (by decide) (by decide)) rfl
    obtain ⟨l, hrun⟩ := hrun rfl
    rw [take_length] at htext
    exact ⟨t, l, hrun, hkind, String.toList_inj.1 htext⟩

theorem isNameChar_of_isWhole (h : isWhole .identifier s) : ∀ c ∈ s, isNameChar c := by
  have hname := isNameChar_of_name? (name?_of_rule? (rule?_of_isWhole h (by decide) (by decide)) rfl).1
  rwa [take_length] at hname

theorem reserved_of_isWhole (h : isWhole .identifier name.toList) : reserved.lookup name = none := by
  have hword := (name?_of_rule? (rule?_of_isWhole h (by decide) (by decide)) rfl).2
  rw [take_length, String.ofList_toList, ofWord] at hword
  cases hlookup : reserved.lookup name with
  | none => rfl
  | some k =>
    have hplain : ∀ r ∈ reserved, r.2 ≠ .identifier := by decide
    obtain ⟨l₁, l₂, hs, -⟩ := List.lookup_eq_some_iff.1 hlookup
    rw [hlookup, getD_some] at hword
    exact absurd hword (hplain (name, k) (by simp [hs]))

theorem isIdentifier_of_isWhole (h : isWhole .identifier name.toList) : isIdentifier name := by
  have hname := (name?_of_rule? (rule?_of_isWhole h (by decide) (by decide)) rfl).1
  simp [isIdentifier, hname, reserved_of_isWhole h]

/-! ## The quotes of a string -/

/-- Where a string ends there is a quote. -/
theorem take_stringTail? (h : stringTail? q s = some n) : ∃ r, s.take n = r ++ [q] := by
  fun_induction stringTail? q s generalizing n with
  | case1 | case3 | case5 => cases h
  | case2 c s _ ih =>
    obtain ⟨m, hm, rfl⟩ := map_eq_some_iff.1 h
    obtain ⟨r, hr⟩ := ih hm
    exact ⟨'\\' :: c :: r, by rw [take_succ_cons, take_succ_cons, hr]; rfl⟩
  | case4 s =>
    cases h
    exact ⟨[], rfl⟩
  | case6 c s _ _ _ ih =>
    obtain ⟨m, hm, rfl⟩ := map_eq_some_iff.1 h
    obtain ⟨r, hr⟩ := ih hm
    exact ⟨c :: r, by rw [take_succ_cons, hr]; rfl⟩

/-- A string without line breaks in it: a quote, the text between the quotes, and the same quote again. -/
structure Quoted (q : Char) (r : List Char) : Prop where
  quote : q = '"' ∨ q = '\''
  ends : stringTail? q (r ++ [q]) = some (r.length + 1)
  joined : '\n' ∉ r

theorem exists_quoted (h : isWhole .string s) : ∃ q r, s = q :: (r ++ [q]) ∧ Quoted q r := by
  simp only [isWhole, Bool.and_eq_true, beq_iff_eq, Bool.not_eq_true', contains_eq_mem, decide_eq_false_iff_not] at h
  obtain ⟨hstring, hbreak⟩ := h
  obtain ⟨q, t, m, rfl, hq, hm, hlen⟩ := string?_eq hstring
  obtain rfl : m = t.length := (Nat.succ.inj hlen).symm
  obtain ⟨r, hr⟩ := take_stringTail? hm
  rw [take_length] at hr
  subst hr
  exact ⟨q, r, rfl, hq, by simpa using hm, fun hmem => hbreak (by simp [hmem])⟩

/-- A string ends at the quote behind a name. -/
theorem stringTail?_name (hq : q = '"' ∨ q = '\'') (hr : ∀ c ∈ r, isNameChar c) (s : List Char) :
    stringTail? q (r ++ q :: s) = some (r.length + 1) := by
  induction r with
  | nil => rw [nil_append, stringTail?_cons (by rcases hq with rfl | rfl <;> decide), if_pos rfl]; rfl
  | cons c r ih =>
    obtain ⟨hc, hr⟩ := forall_mem_cons.1 hr
    rw [cons_append, StringPart.stringTail?_pass (by decide) hq hc, ih hr]
    rfl

/-- What is left when the quotes at both ends are dropped is the text between the quotes, but for quotes at its end. -/
theorem stripQuotes_append (h : Quoted q r) : ∃ k, stripQuotes q (q :: (r ++ [q])) ++ replicate k q = r := by
  have hfirst : (r ++ [q]).dropWhile (· == q) = if r = [] then [] else r ++ [q] := by
    cases r with
    | nil => simp
    | cons c r =>
      have hc : c ≠ q := by
        rintro rfl
        have hend := h.ends
        rw [cons_append, stringTail?_cons (by rcases h.quote with rfl | rfl <;> decide), if_pos rfl] at hend
        simp at hend
      simp [hc]
  rw [stripQuotes, dropWhile_cons_of_pos (by simp), hfirst]
  split
  · next hr => exact ⟨0, by simp [hr]⟩
  · refine ⟨(r.reverse.takeWhile (· == q)).length, ?_⟩
    have hquotes : (r.reverse.takeWhile (· == q)).reverse = replicate (r.reverse.takeWhile (· == q)).length q := by
      refine eq_replicate_iff.2 ⟨length_reverse, fun c hc => ?_⟩
      simpa using mem_takeWhile_imp (mem_reverse.1 hc)
    rw [reverse_append, reverse_singleton, singleton_append, dropWhile_cons_of_pos (by simp), ← hquotes, ← reverse_append,
      takeWhile_append_dropWhile, reverse_reverse]

theorem stripQuotes_eq_of_name (h : Quoted q r) (hs : ∀ c ∈ stripQuotes q (q :: (r ++ [q])), isNameChar c) :
    stripQuotes q (q :: (r ++ [q])) = r := by
  obtain ⟨k, hk⟩ := stripQuotes_append h
  cases k with
  | zero => simpa using hk
  | succ k =>
    -- The string would have ended at the first quote behind the name.
    have hend := h.ends
    rw [← hk, replicate_succ, append_assoc, cons_append, stringTail?_name h.quote hs] at hend
    simp at hend

/-- A name in quotes is found by dropping the quotes, and nothing else is. -/
theorem memberName?_quoted {text : String} (h : Quoted q r) (ht : text.toList = q :: (r ++ [q])) (m : Mark)
    (parts : List Node) :
    memberName? (.node (.string text) m parts) = if isWhole .identifier r then some (.ofList r) else none := by
  have hquote : q = '\'' || q = '"' := by simpa [or_comm] using h.quote
  have hbreak : '\n' ∉ q :: (r ++ [q]) := by
    have hq : '\n' ≠ q := by rcases h.quote with rfl | rfl <;> decide
    simp [hq, h.joined]
  simp only [memberName?, ht, hquote, if_true]
  split
  · next hname =>
    have hwhole := isWhole_of_isIdentifier hname fun hm => hbreak (mem_of_mem_stripQuotes (by simpa using hm))
    rw [String.toList_ofList] at hwhole
    have hsame := stripQuotes_eq_of_name h (isNameChar_of_isWhole hwhole)
    rw [hsame] at hwhole ⊢
    rw [if_pos hwhole]
  · next hname =>
    rw [if_neg]
    intro hwhole
    obtain ⟨k, hk⟩ := stripQuotes_append h
    have hsame := stripQuotes_eq_of_name h fun c hc =>
      isNameChar_of_isWhole hwhole c (hk ▸ mem_append_left _ hc)
    rw [hsame] at hname
    exact hname (isIdentifier_of_isWhole (by rwa [String.toList_ofList]))

/-- A member named by a string in brackets keeps its name. It is printed behind a point exactly if the text between the quotes
alone is read as one name, which then has no quote, backslash or line break in it and is no reserved word; otherwise the string
is printed as it is. -/
theorem bracket_printed {text : String} {t : Token} (ht : t ∈ (tokenize text).1) (hk : t.kind = .string) {a : Node}
    {x : String} (ha : a.compact = .ok x) (m m' : Mark) :
    ∃ q name, (q = '"' ∨ q = '\'') ∧ t.text = q.toString ++ name ++ q.toString ∧
      (IsLoneName name → (Node.node .bracket m [a, .node (.string t.text) m' []]).compact = .ok (x ++ "." ++ name) ∧
        TokenKind.reserved.lookup name = none ∧ ∀ c ∈ ['"', '\'', '\\', '\n'], c ∉ name.toList) ∧
      (¬IsLoneName name →
        (Node.node .bracket m [a, .node (.string t.text) m' []]).compact = .ok (x ++ "[" ++ t.text ++ "]")) := by
  have hwhole := genuine_of_mem_tokenize ht
  rw [Token.isGenuine, hk] at hwhole
  obtain ⟨q, r, htext, hquoted⟩ := exists_quoted hwhole
  obtain ⟨p, hp, rfl⟩ := fold_of_compact ha
  have hprinted : (Node.node .bracket m [a, .node (.string t.text) m' []]).fold Compact.algebra =
      .ok (if isWhole .identifier r then p ++ "." ++ String.ofList r else p ++ "[" ++ t.text ++ "]") := by
    refine (fold_node ..).trans ((Spell.compact_bracket _ m ..).trans ?_)
    rw [memberName?_quoted hquoted htext, hp]
    split_ifs <;> rfl
  refine ⟨q, .ofList r, hquoted.quote, ?_, fun hlone => ?_, fun hlone => ?_⟩
  · rw [← String.toList_inj, htext]
    simp
  · rw [isLoneName_iff, String.toList_ofList] at hlone
    refine ⟨by rw [compact_of_fold hprinted, if_pos hlone]; rfl, reserved_of_isWhole (by rwa [String.toList_ofList]), ?_⟩
    intro c hc hmem
    rw [String.toList_ofList] at hmem
    have hchar := isNameChar_of_isWhole hlone c hmem
    simp only [mem_cons, not_mem_nil, or_false] at hc
    rcases hc with rfl | rfl | rfl | rfl <;> cases hchar
  · rw [isLoneName_iff, String.toList_ofList] at hlone
    rw [compact_of_fold hprinted, if_neg hlone]
    rfl

/-- A name in brackets is printed behind a point. -/
theorem bracket_printed_it : ∃ t ∈ (tokenize "x['it']").1, t.kind = .string ∧ IsLoneName "it" ∧
    (Node.node .bracket {} [.node (.identifier "x") {} [], .node (.string t.text) {} []]).compact = .ok "x.it" := by
  have ht : (⟨.string, "'it'", 1, 2⟩ : Token) ∈ (tokenize "x['it']").1 := by decide
  have hlone : IsLoneName "it" := isLoneName_iff.2 (by decide)
  obtain ⟨q, name, hq, htext, hdot, -⟩ := bracket_printed ht rfl (a := .node (.identifier "x") {} []) rfl {} {}
  obtain rfl : name = "it" := by
    rw [← String.toList_inj] at htext ⊢
    rcases hq with rfl | rfl
    · exact absurd (congrArg head? htext) (by simp)
    · exact (append_left_inj ['\'']).1 (by simpa using htext.symm)
  exact ⟨_, ht, rfl, hlone, (hdot hlone).1⟩

end JsMinify
