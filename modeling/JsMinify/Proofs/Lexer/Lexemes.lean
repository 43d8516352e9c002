import JsMinify.Lexer
import Mathlib.Data.List.TakeWhile

/-!
# Forms of lexemes

`Form` lists the forms that a lexeme can have, and `form_of_rule?` says that there are no others. No
lexeme is empty (`Form.pos`), and but for strings, numbers, regular expressions and the parts between
tokens, none holds a line break (`Form.noBreak`).
-/

namespace JsMinify

open List Option TokenKind

variable {s : List Char} {n : Nat} {k : TokenKind}

/-! ## Deciding

Statements about all characters of a text are decided along the text, not along all characters there are.
-/

namespace Along

variable {α : Type} {p : α → Prop} [DecidablePred p]

scoped instance (priority := 1100) decidableForallList (xs : List α) : Decidable (∀ x ∈ xs, p x) := decidableBAll p xs

scoped instance (priority := 1100) decidableForallOption (o : Option α) : Decidable (∀ x ∈ o, p x) := decidableForallMem o

scoped instance (priority := 1100) decidableExistsOption (o : Option α) : Decidable (∃ x ∈ o, p x) := decidableExistsMem o

end Along

/-! ## Forms -/

/-- Kinds of tokens whose text is not known to be free of line breaks. -/
def TokenKind.mayBreak : TokenKind → Bool
  | .string | .number | .regex | .lineEnd | .lineComment | .blockComment => true
  | _ => false

namespace Lexeme

/-- The text begins with a lexeme of a kind and a length. -/
inductive Form (s : List Char) : TokenKind → Nat → Prop where
  | string {n : Nat} (h : string? s = some n) : Form s .string n
  | getter {n : Nat} (h : accessor? "get" s = some n) : Form s .getProp n
  | setter {n : Nat} (h : accessor? "set" s = some n) : Form s .setProp n
  | word {n : Nat} (h : name? s = some n) : Form s (TokenKind.ofWord (String.ofList (s.take n))) n
  | number {n : Nat} (h : number? s = some n) : Form s .number n
  | blockComment {n : Nat} (h : blockComment? s = some n) : Form s .blockComment n
  | lineComment {n : Nat} (h : lineComment? s = some n) : Form s .lineComment n
  | lineEnd {n : Nat} (h : lineEnd? s = some n) : Form s .lineEnd n
  | punctuator {p : String × TokenKind} (listed : p ∈ TokenKind.punctuators)
      (h : p.1.toList.isPrefixOf s) : Form s p.2 p.1.length
  | regex {n : Nat} (h : regex? s = some n) : Form s .regex n

variable {o : Option Nat}

theorem form_of_map {k' : TokenKind} (form : ∀ {n}, o = some n → Form s k n)
    (h : o.map (k, ·) = some (k', n)) : Form s k' n := by
  obtain ⟨m, hm, he⟩ := map_eq_some_iff.1 h
  cases he
  exact form hm

theorem form_of_rule? (h : rule? s = some (k, n)) : Form s k n := by
  simp only [rule?, orElse_eq_orElse, orElse_eq_or, or_eq_some_iff] at h
  rcases h with h | ⟨-, h | ⟨-, h | ⟨-, h | ⟨-, h | ⟨-, h | ⟨-, h | ⟨-, h | ⟨-, h⟩⟩⟩⟩⟩⟩⟩⟩
  · exact form_of_map .string h
  · exact form_of_map .getter h
  · exact form_of_map .setter h
  · obtain ⟨m, hm, he⟩ := map_eq_some_iff.1 h
    cases he
    exact .word hm
  · exact form_of_map .number h
  · exact form_of_map .blockComment h
  · exact form_of_map .lineComment h
  · exact form_of_map .lineEnd h
  · obtain ⟨p, hp, he⟩ := map_eq_some_iff.1 h
    cases he
    have hf := find?_some hp
    exact .punctuator (mem_of_find?_eq_some hp) hf

/-! ## No lexeme is empty -/

theorem punctuators_pos : ∀ p ∈ punctuators, 0 < p.1.length := by decide

theorem accessor?_length {word : String} (h : accessor? word s = some n) : n = word.toList.length ∧ word.toList <+: s := by
  unfold accessor? at h
  simp only at h
  split at h
  · next hp =>
    split at h
    · split at h
      · exact ⟨(some.inj h).symm, isPrefixOf_iff_prefix.1 hp⟩
      · cases h
    · cases h
  · cases h

theorem decimal?_pos (h : decimal? s = some n) : 0 < n := by
  unfold decimal? at h
  split at h
  · simp only at h
    split at h
    · cases h
    · simp only [some.injEq] at h
      omega
  · cases h
  · simp only [some.injEq] at h
    omega
  · next hw _ _ =>
    simp only [some.injEq] at h
    have hne : whole s ≠ 0 := hw
    omega

theorem number?_pos (h : number? s = some n) : 0 < n := by
  unfold number? at h
  split at h
  · simp only at h
    split at h
    · simp only [some.injEq] at h
      omega
    · split at h
      · simp only [some.injEq] at h
        omega
      · exact decimal?_pos h
  · exact decimal?_pos h

theorem name?_eq (h : name? s = some n) : 0 < n ∧ n = run isNameStart s + run isNamePart (s.drop (run isNameStart s)) := by
  simp only [name?] at h
  split at h
  · cases h
  · simp only [some.injEq] at h
    omega

theorem string?_eq (h : string? s = some n) :
    ∃ q r m, s = q :: r ∧ (q = '"' ∨ q = '\'') ∧ stringTail? q r = some m ∧ n = m + 1 := by
  unfold string? at h
  split at h
  · next q r =>
    split at h
    · next hq =>
      obtain ⟨m, hm, rfl⟩ := map_eq_some_iff.1 h
      exact ⟨q, r, m, rfl, by simpa using hq, hm, rfl⟩
    · cases h
  · cases h

theorem blockComment?_eq (h : blockComment? s = some n) : ∃ r m, s = '/' :: '*' :: r ∧ blockTail? r = some m ∧ n = m + 2 := by
  unfold blockComment? at h
  split at h
  · next r =>
    obtain ⟨m, hm, rfl⟩ := map_eq_some_iff.1 h
    exact ⟨r, m, rfl, hm, rfl⟩
  · cases h

theorem lineComment?_eq (h : lineComment? s = some n) :
    ∃ r, s = '/' :: '/' :: r ∧ n = 2 + run (fun c => c != '\n' && c != '\r') r := by
  unfold lineComment? at h
  split at h
  · exact ⟨_, rfl, (some.inj h).symm⟩
  · cases h

theorem lineEnd?_eq (h : lineEnd? s = some n) : ∃ r, s = '\n' :: r ∧ n = 1 := by
  unfold lineEnd? at h
  split at h
  · exact ⟨_, rfl, (some.inj h).symm⟩
  · cases h

theorem regex?_eq (h : regex? s = some n) : ∃ c r m, s = '/' :: c :: r ∧ (c ≠ '*' ∧ c ≠ '/') ∧
    regexTail? false (c :: r) = some m ∧ n = m + 1 + run Char.isAlphanum ((c :: r).drop m) := by
  unfold regex? at h
  split at h
  · next c r =>
    split at h
    · cases h
    · next hc =>
      obtain ⟨m, hm, rfl⟩ := map_eq_some_iff.1 h
      exact ⟨c, r, m, rfl, by simpa using hc, hm, rfl⟩
  · cases h

theorem Form.pos (h : Form s k n) : 0 < n := by
  cases h with
  | string h =>
    obtain ⟨_, _, m, -, -, -, rfl⟩ := string?_eq h
    omega
  | getter h | setter h =>
    rw [(accessor?_length h).1]
    decide
  | word h => exact (name?_eq h).1
  | number h => exact number?_pos h
  | blockComment h =>
    obtain ⟨_, m, -, -, rfl⟩ := blockComment?_eq h
    omega
  | lineComment h =>
    obtain ⟨_, -, rfl⟩ := lineComment?_eq h
    omega
  | lineEnd h =>
    obtain ⟨_, -, rfl⟩ := lineEnd?_eq h
    omega
  | punctuator listed _ => exact punctuators_pos _ listed
  | regex h =>
    obtain ⟨_, _, m, -, -, -, rfl⟩ := regex?_eq h
    omega

/-! ## Line breaks -/

theorem take_run (p : Char → Bool) (s : List Char) : s.take (run p s) = s.takeWhile p :=
  (prefix_iff_eq_take.1 (List.takeWhile_prefix p)).symm

theorem not_mem_take_run {p : Char → Bool} {c : Char} (hc : p c = false) (s : List Char) : c ∉ s.take (run p s) := by
  rw [take_run]
  intro hm
  have := mem_takeWhile_imp hm
  rw [hc] at this
  cases this

theorem take_length_eq {w : List Char} (h : w <+: s) : s.take w.length = w :=
  (prefix_iff_eq_take.1 h).symm

theorem punctuators_noBreak : ∀ p ∈ punctuators, '\n' ∉ p.1.toList := by decide

theorem Form.noBreak (h : Form s k n) (hk : k.mayBreak = false) : '\n' ∉ s.take n := by
  cases h with
  | string | number | blockComment | lineComment | lineEnd | regex => cases hk
  | getter h | setter h =>
    obtain ⟨rfl, hp⟩ := accessor?_length h
    rw [take_length_eq hp]
    decide
  | word h =>
    rw [(name?_eq h).2, take_add, mem_append, not_or]
    constructor
    · exact not_mem_take_run (by decide) s
    · exact not_mem_take_run (by decide) _
  | punctuator listed h =>
    rename_i p
    have hlen : p.1.length = p.1.toList.length := String.length_toList.symm
    rw [hlen, take_length_eq (List.isPrefixOf_iff_prefix.1 h)]
    exact punctuators_noBreak _ listed

/-! ## What stands between tokens -/

theorem reserved_solid : ∀ p ∈ reserved, p.2.isTrivia = false := by decide

theorem punctuators_solid : ∀ p ∈ punctuators, p.2.isTrivia = false := by decide

theorem ofWord_solid (word : String) : (ofWord word).isTrivia = false := by
  unfold ofWord
  cases h : reserved.lookup word with
  | none => rfl
  | some k =>
    obtain ⟨l₁, l₂, hs, -⟩ := List.lookup_eq_some_iff.1 h
    exact reserved_solid (word, k) (by simp [hs])

/-- What stands between tokens is a comment or a line break. -/
theorem Form.trivia_cases (h : Form s k n) (hk : k.isTrivia) :
    k = .blockComment ∧ blockComment? s = some n ∨ k = .lineComment ∧ lineComment? s = some n ∨
      k = .lineEnd ∧ ∃ r, s = '\n' :: r ∧ n = 1 := by
  cases h with
  | blockComment h => exact .inl ⟨rfl, h⟩
  | lineComment h => exact .inr (.inl ⟨rfl, h⟩)
  | lineEnd h => exact .inr (.inr ⟨rfl, lineEnd?_eq h⟩)
  | word =>
    rw [ofWord_solid] at hk
    cases hk
  | punctuator listed _ =>
    rw [punctuators_solid _ listed] at hk
    cases hk
  | _ => cases hk

theorem Form.lineEnd_eq (h : Form s k n) (hk : k = .lineEnd) : ∃ r, s = '\n' :: r ∧ n = 1 := by
  subst hk
  rcases h.trivia_cases rfl with ⟨hk, -⟩ | ⟨hk, -⟩ | ⟨-, hs⟩
  · cases hk
  · cases hk
  · exact hs

/-- What stands between tokens is a line break or begins like a comment. -/
theorem Form.trivia (h : Form s k n) (hk : k.isTrivia) :
    k = .lineEnd ∧ s.head? = some '\n' ∨ ∃ d r, s = '/' :: d :: r ∧ (d = '/' ∨ d = '*') := by
  rcases h.trivia_cases hk with ⟨-, h⟩ | ⟨-, h⟩ | ⟨hk, r, rfl, -⟩
  · obtain ⟨r, _, rfl, -⟩ := blockComment?_eq h
    exact .inr ⟨_, r, rfl, .inr rfl⟩
  · obtain ⟨r, rfl, -⟩ := lineComment?_eq h
    exact .inr ⟨_, r, rfl, .inl rfl⟩
  · exact .inl ⟨hk, rfl⟩

theorem rule?_slash (s : List Char) : (rule? ('/' :: s)).isSome := by
  have hp : (punctuator? ('/' :: s)).isSome := by
    rw [punctuator?, isSome_map, find?_isSome]
    exact ⟨("/", .divide), by decide, rfl⟩
  cases hr : rule? ('/' :: s) with
  | some r => rfl
  | none =>
    simp only [rule?, orElse_eq_orElse, orElse_eq_or, or_eq_none_iff] at hr
    rw [hr.2.2.2.2.2.2.2.2] at hp
    cases hp

end Lexeme

end JsMinify
