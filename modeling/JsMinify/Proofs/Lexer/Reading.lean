import JsMinify.Proofs.Lexer.Raw

/-!
# What reading does to the lexer

Every token read takes characters from the text, and nothing is read only when the text is used up
(`Read`). A token handed out carries the current line and is neither a line break nor a comment.
`token_read` says this of `Lexer.token` where nothing is pushed back.
-/

namespace JsMinify.Lexer

open Lexeme List

variable {l l' l₁ l₂ : Lexer} {r : Option Token} {t : Token} {fuel : Nat}

/-- What reading did: it gave a token or came to the end of the text. -/
structure Read (l l' : Lexer) (r : Option Token) : Prop where
  shorter : r.isSome → l'.rest.length < l.rest.length
  ended : r = none → l'.rest = []
  noBreak : ∀ t, r = some t → t.kind.mayBreak = false → t.breaks = 0

theorem Read.length_le (h : Read l l' r) : l'.rest.length ≤ l.rest.length := by
  cases r with
  | none =>
    rw [h.ended rfl]
    exact Nat.zero_le _
  | some t => exact Nat.le_of_lt (h.shorter rfl)

theorem Read.eq_none (h : Read l l' r) (hl : l.rest = []) : r = none := by
  cases r with
  | none => rfl
  | some t =>
    have := h.shorter rfl
    rw [hl] at this
    cases this

theorem Read.of_rest_eq (h : Read l₁ l₂ r) (before : l₁.rest = l.rest) (after : l'.rest = l₂.rest) : Read l l' r := by
  refine ⟨fun hs => ?_, fun hn => ?_, h.noBreak⟩
  · have := h.shorter hs
    rwa [after, ← before]
  · rw [after, h.ended hn]

/-- What is read after a token that is passed over. -/
theorem Read.after (first : Read l l₁ (some t)) (h : Read l₁ l₂ r) : Read l l₂ r := by
  have hle := h.length_le
  have hlt := first.shorter rfl
  exact ⟨fun _ => by omega, h.ended, h.noBreak⟩

theorem breaks_eq_zero (h : '\n' ∉ t.text.toList) : t.breaks = 0 :=
  count_eq_zero.2 h

/-! ## One raw token -/

theorem scan_read (h : l.scan = (.ok r, l')) : Read l l' r := by
  cases scan_scanned h with
  | ended => exact ⟨nofun, fun _ => rfl, nofun⟩
  | @lexeme g v k n _ _ _ text _ head rule =>
    have hform := form_of_lexer_rule? rule
    refine ⟨fun _ => ?_, nofun, ?_⟩
    · have := hform.pos
      obtain ⟨c, s, rfl, -⟩ := head
      rw [text, length_drop, length_append, length_cons]
      omega
    · rintro t ⟨⟩ hb
      apply breaks_eq_zero
      have hk : k ≠ .string := by rintro rfl; cases hb
      rw [String.toList_ofList, joined, if_neg hk]
      exact hform.noBreak hb

theorem raw_read (h : l.raw = (.ok r, l')) : Read l l' r := by
  obtain ⟨mode, mode', l₁, r₁, hscan, -, ⟨rfl, rfl⟩ | ⟨-, t, rfl, -, rfl, rfl⟩⟩ := raw_ok h
  · exact (scan_read hscan).of_rest_eq rfl rfl
  · refine ⟨fun _ => (scan_read hscan).shorter rfl, nofun, ?_⟩
    rintro u hu -
    cases hu
    exact (by decide : lineBreaks ";".toList = 0)

/-! ## One token of the program -/

/-- What was handed out: a token on the current line, or nothing at the end of the text. -/
structure Handed (l l' : Lexer) (r : Option Token) : Prop extends Read l l' r where
  line : ∀ t, r = some t → t.line = l'.line
  solid : ∀ t, r = some t → t.kind.isTrivia = false

theorem handOut_handed (first : Read l l₁ (some t)) (ht : t.kind.isTrivia = false) :
    Handed l (l₁.handOut t).2 (some (l₁.handOut t).1) := by
  obtain ⟨cur, he⟩ := handOut_eq l₁ t
  rw [he]
  refine ⟨⟨fun _ => first.shorter rfl, by simp, ?_⟩, ?_, ?_⟩
  · rintro u hu hb
    cases hu
    exact first.noBreak t rfl hb
  · rintro u hu
    cases hu
    rfl
  · rintro u hu
    cases hu
    exact ht

theorem Handed.after (first : Read l l₁ (some t)) (h : Handed (l₁.countBreaks t) l₂ r) : Handed l l₂ r :=
  ⟨first.after (h.toRead.of_rest_eq rfl rfl), h.line, h.solid⟩

/-- Where a token of the program is found, the next raw token is passed over or handed out. -/
theorem skipTrivia_some (h : skipTrivia (fuel + 1) l = (.ok (some t), l')) : ∃ u m, l.raw = (.ok (some u), m) ∧
      (u.kind.isTrivia ∧ skipTrivia fuel (m.countBreaks u) = (.ok (some t), l') ∨
        u.kind.isTrivia = false ∧ m.handOut u = (t, l')) := by
  obtain ⟨hr, -⟩ | ⟨u, m, hraw, hpassed | ⟨hu, hr, rfl⟩⟩ := skipTrivia_ok h
  · cases hr
  · exact ⟨u, m, hraw, .inl hpassed⟩
  · exact ⟨u, m, hraw, .inr ⟨hu, Prod.ext (Option.some.inj hr).symm rfl⟩⟩

theorem skipTrivia_handed (hf : l.rest.length < fuel) (h : skipTrivia fuel l = (.ok r, l')) : Handed l l' r := by
  induction fuel generalizing l with
  | zero => omega
  | succ fuel ih =>
    obtain ⟨rfl, hraw⟩ | ⟨t, m, hraw, ⟨-, hlater⟩ | ⟨ht, rfl, rfl⟩⟩ := skipTrivia_ok h
    · exact ⟨raw_read hraw, nofun, nofun⟩
    · have hread := raw_read hraw
      have hshort := hread.shorter rfl
      exact Handed.after hread (ih (by change m.rest.length < fuel; omega) hlater)
    · exact handOut_handed (raw_read hraw) ht

/-- The next token where none is pushed back. -/
theorem token_ok (hp : l.pushed = []) (h : l.token = (.ok r, l')) : skipTrivia (l.rest.length + 1) l = (.ok r, l') := by
  unfold token at h
  rw [hp] at h
  simp only at h
  split at h
  · exact h
  · cases (Prod.mk.inj h).1

theorem token_read (hp : l.pushed = []) (h : l.token = (.ok r, l')) : Handed l l' r :=
  skipTrivia_handed (Nat.lt_succ_self _) (token_ok hp h)

/-! ## The tokens pushed back -/

/-- Reading a raw token leaves what was pushed back. -/
theorem raw_pushed (l : Lexer) : l.raw.2.pushed = l.pushed := by
  unfold raw
  split
  · unfold readRegex
    split
    · next hscan => exact (scan_kept hscan).pushed
    · next hscan => exact (scan_kept hscan).pushed
  · rcases advance_cases l with ⟨e, l', h, ha⟩ | ⟨l', h, ha⟩ | ⟨t, l', h, ha | ⟨-, ha⟩⟩ <;>
    · rw [ha]
      exact (scan_kept h).pushed

/-- The raw token before is remembered. -/
theorem raw_prev (h : l.raw = (.ok r, l')) : l'.prev = l.cur := by
  obtain ⟨mode, mode', l₁, r₁, hscan, -, ⟨-, rfl⟩ | ⟨-, t, -, -, -, rfl⟩⟩ := raw_ok h <;> exact (scan_kept hscan).prev

theorem skipTrivia_pushed (fuel : Nat) (l : Lexer) : (skipTrivia fuel l).2.pushed = l.pushed := by
  induction fuel generalizing l with
  | zero => rfl
  | succ fuel ih =>
    have hraw := raw_pushed l
    rw [skipTrivia_succ]
    rcases hr : l.raw with ⟨e | _ | t, l₁⟩
    · rw [hr] at hraw
      exact hraw
    · rw [hr] at hraw
      exact hraw
    · rw [hr] at hraw
      simp only
      split
      · exact (ih _).trans hraw
      · obtain ⟨cur, he⟩ := handOut_eq l₁ t
        simp only [handOut?, he]
        exact hraw

/-- Whatever comes of it, a token pushed back is taken first, and none is added. -/
theorem token_pushed_length (l : Lexer) : l.token.2.pushed.length = l.pushed.length - 1 := by
  unfold token
  cases hp : l.pushed with
  | nil =>
    simp only
    split
    · rw [skipTrivia_pushed, hp]
      rfl
    · rw [hp]
      rfl
  | cons t rest => simp [handBack]

theorem token_pushed_nil {r : Except LexError (Option Token)} (hp : l.pushed = []) (h : l.token = (r, l')) :
    l'.pushed = [] := by
  have hlen := token_pushed_length l
  rwa [h, hp, length_nil, Nat.zero_sub, length_eq_zero_iff] at hlen

end JsMinify.Lexer
