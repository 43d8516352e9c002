import JsMinify.Proofs.Node.Fusing
import JsMinify.Proofs.Node.Phrase

/-!
# Words that stand next to each other

Which words are parted (`Parted`), by what stands between them. A blank parts all words but `get` and `set` before a
name, and a slash is read as the word before it asks for. An operand is parted from what can follow it
(`Parted.behindOperand`), and a punctuator from a name, a string or a parenthesis behind it (`Parted.beforeOperand`).
-/

namespace JsMinify

open List Lexeme Lexer TokenKind Option Along

namespace Lexeme

/-- Characters that no lexeme goes on with. -/
def parting : List Char := [' ', '\n', '.', ',', ';', ':', '(', ')', '[', ']', '\x7b', '\x7d', '?']

theorem parting_stops : ∀ c ∈ parting, isNameChar c = false ∧ c.isAlphanum = false ∧ c ≠ '/' ∧ c ≠ '*' ∧
    ∀ q ∈ punctuators, beginsPunctuator (q.1.toList ++ [c]) = false := by decide +kernel

/-- No punctuator goes on with a quote or a parenthesis. -/
theorem punctuators_before_quote : ∀ q ∈ punctuators, ∀ c ∈ ['"', '\'', '('], stops q.2 q.1.toList c := by
  decide +kernel

end Lexeme

namespace Word

variable {w v : Word} {text : String} {c : Char}

/-- The text of a punctuator is the listed one. -/
theorem mem_punctuators (h : w.isSound) (hk : w.1.isPunctuator) : (w.2, w.1) ∈ punctuators := by
  obtain ⟨q, hq, hqk⟩ := any_eq_true.1 hk
  obtain ⟨hplain, hstring, hregex⟩ := beq_iff_eq.1 hqk ▸ punctuators_never_wordy q hq
  obtain ⟨c, r, hc⟩ := exists_cons_of_ne_nil (Piece.text_ne_of_isSound h)
  cases opening_of_isSound h hc with
  | @punctuator q' listed kind _ text =>
    have hpair : q' = (w.2, w.1) := Prod.ext text.symm (some.inj kind).symm
    exact hpair ▸ listed
  | blank kind _ => cases kind
  | string kind _ => exact absurd (some.inj kind) hstring
  | regex kind _ => exact absurd (some.inj kind) hregex
  | word kind _ =>
    have hwordy : w.1.isWordy := kind.1
    rw [hplain] at hwordy
    cases hwordy
  | number kind _ =>
    have hwordy := hplain
    rw [some.inj kind] at hwordy
    cases hwordy

theorem isSound_of_isWhole {k : TokenKind} (hk : k ∈ [.identifier, .number, .string, .regex])
    (h : isWhole k text.toList) : isSound (k, text) := by
  simp only [mem_cons, not_mem_nil, or_false] at hk
  rcases hk with rfl | rfl | rfl | rfl <;> simp [isSound, Piece.isSound, h, TokenKind.isTrivia]

theorem head_of_string (h : isSound (.string, text)) : text.toList.head? = some '"' ∨ text.toList.head? = some '\'' := by
  obtain ⟨c, r, hc⟩ := exists_cons_of_ne_nil (Piece.text_ne_of_isSound h)
  rw [hc]
  cases opening_of_isSound h hc with
  | string _ head => simpa using head
  | @punctuator q listed kind _ _ =>
    exact absurd (some.inj kind).symm (punctuators_never_wordy q listed).2.1
  | blank kind _ | number kind _ | regex kind _ => cases kind
  | word kind _ => cases kind.1

theorem slash_kinds : ∀ q ∈ punctuators, q.1.toList.head? ≠ some '/' →
    q.2 ≠ .regex ∧ q.2 ≠ .divide ∧ q.2 ≠ .divideAssign := by decide

/-- A word that does not begin with a slash is read wherever it stands. -/
theorem isReadIf_of_head (h : w.isSound) {r : List Char} (hc : w.2.toList = c :: r) (hslash : c ≠ '/')
    (divides : Bool) : w.isReadIf divides := by
  have hkinds : w.1 ≠ .regex ∧ w.1 ≠ .divide ∧ w.1 ≠ .divideAssign := by
    cases hopening : opening_of_isSound h hc with
    | blank kind _ => cases kind
    | string kind _ | number kind _ => simp [some.inj kind]
    | regex _ head => exact absurd head hslash
    | word kind _ =>
      have hwordy : w.1.isWordy := kind.1
      refine ⟨?_, ?_, ?_⟩ <;>
      · intro hk
        rw [hk] at hwordy
        cases hwordy
    | @punctuator q listed kind head _ =>
      rw [some.inj kind]
      exact slash_kinds q listed (by simp [head, hslash])
  obtain ⟨hregex, hdivide, hassign⟩ := hkinds
  unfold isReadIf
  split
  · next hk => exact absurd hk hregex
  · next hk => exact absurd hk hdivide
  · next hk => exact absurd hk hassign
  · rfl

/-- Where a slash divides, all words but regular expressions are read. -/
theorem isReadIf_true (h : w.1 ≠ .regex) : w.isReadIf true := by
  unfold isReadIf
  split
  · next hk => exact absurd hk h
  · rfl
  · rfl
  · rfl

theorem stops_parting (h : w.isSound) (hc : c ∈ parting) : stops w.1 w.2.toList c := by
  obtain ⟨hname, halnum, hslash, hstar, hpunct⟩ := parting_stops c hc
  cases hk : w.1.isPunctuator with
  | true =>
    have hmem := mem_punctuators h hk
    rw [stops_punctuator hmem, hpunct _ hmem, isDigit_of_isAlphanum halnum]
    simp [hslash, hstar]
  | false =>
    unfold stops
    split
    · rfl
    · rw [halnum]; rfl
    · rw [halnum]; rfl
    · rw [hk, hname]; rfl

end Word

namespace Parted

variable {w v : Word}

/-- Two words are parted without a blank between them if the first character of the second one does not go on with
the first one. -/
theorem of_stops (hv : v.isSound) (hstops : ∀ c ∈ v.2.toList.head?, stops w.1 w.2.toList c)
    (hpoint : w.1 = .number → v.2.toList.head? ≠ some '.') (hget : w.1 ≠ .getProp) (hset : w.1 ≠ .setProp)
    (hslash : v.isReadIf w.1.endsOperand) : Parted w "" v := by
  obtain ⟨c, r, hc, hblank, -⟩ := Word.exists_head hv
  refine ⟨nofun, ⟨hstops, fun hnumber hhead => absurd hhead (hpoint hnumber), fun _ => ?_⟩, nofun, hslash⟩
  have hnone : opensName v.2.toList = false := by
    rw [hc]
    exact opensName_eq_false hblank r
  have hplain : (w.1 == .getProp || w.1 == .setProp) = false := by simp [hget, hset]
  rw [hplain]
  exact hnone

/-- A punctuator is parted from a name, a string or a parenthesis behind it. -/
theorem beforeOperand (hw : w.isSound) (hk : w.1.isPunctuator) (hv : v.isSound)
    (hhead : ∀ c ∈ v.2.toList.head?, isNameStart c ∨ c ∈ ['"', '\'', '(']) : Parted w "" v := by
  have hmem := Word.mem_punctuators hw hk
  have hstops : ∀ c ∈ v.2.toList.head?, stops w.1 w.2.toList c := by
    intro c hc
    rcases hhead c hc with hname | hquote
    · have hdigit : c.isDigit = false := by
        by_contra hd
        rw [isNameStart_of_isDigit (by simpa using hd)] at hname
        cases hname
      have hslash : (c == '/' || c == '*') = false := by
        have hdiffer : ∀ d ∈ ['/', '*'], c ≠ d := by
          rintro d hd rfl
          revert hname
          simp only [mem_cons, not_mem_nil, or_false] at hd
          rcases hd with rfl | rfl <;> decide
        simp [hdiffer]
      rw [stops_punctuator hmem, not_beginsPunctuator (by rw [hname]; rfl), hdigit, hslash]
      simp
    · exact punctuators_before_quote _ hmem c hquote
  have hplain : w.1 ≠ .number ∧ w.1 ≠ .getProp ∧ w.1 ≠ .setProp := by
    refine ⟨?_, ?_, ?_⟩ <;>
    · intro h
      rw [h] at hk
      cases hk
  refine of_stops hv hstops (fun h => absurd h hplain.1) hplain.2.1 hplain.2.2 ?_
  obtain ⟨c, r, hc, -⟩ := Word.exists_head hv
  have hfirst := hhead c (by rw [hc]; rfl)
  exact Word.isReadIf_of_head hv hc (by rintro rfl; revert hfirst; decide) _

/-- A blank parts two words, unless it makes another word of `get` or `set`. -/
theorem blank (hw : w.isSound) (hopens : w.2 = "get" ∨ w.2 = "set" → opensName (' ' :: v.2.toList) = (w.1 == .getProp || w.1 == .setProp))
    (hslash : v.isReadIf w.1.endsOperand) : Parted w " " v := by
  refine ⟨by simp, ⟨?_, ?_, hopens⟩, by simp, hslash⟩
  · rintro c hc
    obtain rfl : ' ' = c := some.inj hc
    exact Word.stops_parting hw (by decide)
  · rintro - hpoint
    cases hpoint

/-- What can follow an operand is parted from it. -/
theorem behindOperand (hw : w.isSound) (hcloses : w.1.endsOperand) (hv : v.isSound)
    (hfollow : ∀ c ∈ v.2.toList.head?, c ∈ followers) (hpoint : w.1 = .number → v.2.toList.head? ≠ some '.')
    (hregex : v.1 ≠ .regex) : Parted w "" v := by
  refine of_stops hv (fun c hc => stops_of_closes hw rfl hcloses (hfollow c hc)) hpoint ?_ ?_ ?_
  · rintro hk
    rw [hk] at hcloses
    cases hcloses
  · rintro hk
    rw [hk] at hcloses
    cases hcloses
  · rw [hcloses]
    exact Word.isReadIf_true hregex

end Parted

namespace Spells

variable {ws us : List Word} {s t : String}

theorem sound (h : Spells ws s) : ∀ w ∈ ws, w.isSound := by
  induction h with
  | nil => nofun
  | one sound => simpa using sound
  | cons _ sound _ _ ih => exact forall_mem_cons.2 ⟨sound, ih⟩

theorem word {w : Word} (h : w.isSound) (hget : w.1 ≠ .getProp) (hset : w.1 ≠ .setProp) : Spells [w] w.2 := by
  refine .one h ⟨nofun, nofun, fun _ => ?_⟩
  have hplain : (w.1 == .getProp || w.1 == .setProp) = false := by simp [hget, hset]
  rw [hplain]
  rfl

/-- Two texts with a gap between them. -/
theorem join {gap : String} (h : Spells ws s) (hws : ws ≠ []) (h' : Spells us t) (hus : us ≠ [])
    (hparted : ∀ w ∈ ws.getLast?, ∀ v ∈ us.head?, Parted w gap v) : Spells (ws ++ us) (s ++ gap ++ t) := by
  obtain ⟨v, us, rfl⟩ := exists_cons_of_ne_nil hus
  have hlast := dropLast_append_getLast hws
  have hjoined := append (w := ws.getLast hws) (hlast ▸ h) h' (hparted _ (getLast?_eq_some_getLast hws) v rfl)
  rwa [append_cons, hlast] at hjoined

end Spells

end JsMinify
