import JsMinify.Proofs.Lexer.Lines

/-!
# The tokens of a text

`Reads` is the stream of tokens that a lexer hands out, and `Raws` the stream of raw tokens it reads,
line breaks and comments included. A lexer that is drained gives the first (`Reads.drain`), and what it
remembers as the token before the last one is the raw token before it (`Reads.afterLineEnd`).
-/

namespace JsMinify

open List

namespace Lexer

variable {l l' m : Lexer} {ts : List Token} {t : Token} {fuel : Nat}

/-- Tokens handed out one after another, and the lexer afterwards. -/
inductive Reads (l : Lexer) : List Token → Lexer → Prop where
  | nil : Reads l [] l
  | snoc {ts : List Token} {t : Token} {m m' : Lexer} (before : Reads l ts m)
      (next : m.token = (.ok (some t), m')) : Reads l (ts ++ [t]) m'

/-- Raw tokens read one after another, and the lexer afterwards. -/
inductive Raws (l : Lexer) : List Token → Lexer → Prop where
  | nil : Raws l [] l
  | snoc {ts : List Token} {t u : Token} {m m' : Lexer} (before : Raws l ts m)
      (next : m.raw = (.ok (some t), m')) (read : m'.cur = some u) :
      Raws l (ts ++ [u]) (m'.countBreaks t)

/-! ## Draining -/

theorem Reads.pushed (h : Reads l ts m) (hl : l.pushed = []) : m.pushed = [] := by
  induction h with
  | nil => exact hl
  | snoc _ next ih => exact token_pushed_nil ih next

theorem Reads.length_le (h : Reads l ts m) (hl : l.pushed = []) : ts.length + m.rest.length ≤ l.rest.length := by
  induction h with
  | nil => simp
  | snoc before next ih =>
    have hshort := (token_read (before.pushed hl) next).shorter rfl
    rw [length_append, length_singleton]
    omega

theorem Reads.drainFrom (h : Reads l ts m) (hf : ts.length ≤ fuel) : Lexer.drainFrom fuel l =
      (ts ++ (Lexer.drainFrom (fuel - ts.length) m).1, (Lexer.drainFrom (fuel - ts.length) m).2) := by
  induction h with
  | nil => simp
  | @snoc ts t m m' before next ih =>
    rw [length_append, length_singleton] at hf ⊢
    obtain ⟨k, hk⟩ : ∃ k, fuel - ts.length = k + 1 := ⟨fuel - ts.length - 1, by omega⟩
    have hk' : fuel - (ts.length + 1) = k := by omega
    rw [ih (by omega), hk, hk', Lexer.drainFrom, next]
    simp

/-- A lexer is drained by reading on. -/
theorem Reads.drain_eq (h : Reads l ts m) (hl : l.pushed = []) :
    ∃ k, l.drain = (ts ++ (Lexer.drainFrom (k + 1) m).1, (Lexer.drainFrom (k + 1) m).2) := by
  have hlen := h.length_le hl
  refine ⟨l.rest.length - ts.length, ?_⟩
  rw [Lexer.drain, hl, length_nil, Nat.zero_add, h.drainFrom (by omega), Nat.sub_add_comm (by omega)]

/-- A lexer at the end of its stream has been drained. -/
theorem Reads.drain {m' : Lexer} (h : Reads l ts m) (hl : l.pushed = []) (last : m.token = (.ok none, m')) :
    l.drain = (ts, .ok (), m') := by
  obtain ⟨k, hk⟩ := h.drain_eq hl
  rw [hk, Lexer.drainFrom, last]
  simp

/-! ## Raw tokens -/

/-- The raw token that was read is remembered, or the line break that a semicolon stands for. -/
theorem raw_remembers (h : l.raw = (.ok (some t), l')) :
    l'.cur = some t ∨ t.kind = .semi ∧ ∃ u, l'.cur = some u ∧ u.kind = .lineEnd := by
  obtain ⟨mode, mode', l₁, r₁, -, -, ⟨-, rfl⟩ | ⟨-, u, -, hend, ht, rfl⟩⟩ := raw_ok h
  · exact .inl rfl
  · cases ht
    exact .inr ⟨rfl, u, rfl, hend⟩

theorem raw_cur (h : l.raw = (.ok (some t), l')) : ∃ u, l'.cur = some u ∧ (t.kind ≠ .semi → u = t) := by
  rcases raw_remembers h with hcur | ⟨hsemi, u, hcur, -⟩
  · exact ⟨t, hcur, fun _ => rfl⟩
  · exact ⟨u, hcur, fun hk => absurd hsemi hk⟩

/-- A lexer remembers the last two raw tokens. -/
theorem Raws.last (h : Raws l ts m) (hl : l.cur = none) :
    m.cur = ts.getLast? ∧ (ts ≠ [] → m.prev = ts.dropLast.getLast?) := by
  induction h with
  | nil => exact ⟨hl, fun hne => absurd rfl hne⟩
  | @snoc ts t u m m' before next read ih =>
    have hprev := raw_prev next
    refine ⟨?_, fun _ => ?_⟩
    · rw [getLast?_append]
      exact read
    · rw [dropLast_concat]
      exact hprev.trans ih.1

/-- Between two tokens handed out, raw tokens are read. -/
theorem Raws.skipTrivia {l₀ : Lexer} {us : List Token} (hm : Raws l₀ us m) (alike : Alike l m)
    (h : Lexer.skipTrivia fuel l = (.ok (some t), l')) :
    ∃ us' u m', Raws l₀ (us' ++ [u]) m' ∧ Alike l' m' ∧ (t.kind ≠ .semi → u.bare = t.bare) := by
  induction fuel generalizing l m us with
  | zero => cases (Prod.mk.inj h).1
  | succ fuel ih =>
    have hsame := raw_alike alike
    rw [skipTrivia_succ] at h
    generalize hr : m.raw = r at hsame
    generalize l.raw = r' at hsame h
    cases hsame with
    | error => cases (Prod.mk.inj h).1
    | @ok t₁ t₂ l₁ m₁ token lexer =>
      cases t₁ with
      | none =>
        have := endOf_ok (Prod.mk.inj h).1
        cases this
      | some t₁ =>
        obtain ⟨t₂, rfl, hbare⟩ := Option.map_eq_some_iff.1 token.symm
        obtain ⟨u, hu, htoken⟩ := raw_cur hr
        have hraws := hm.snoc hr hu
        have hcount := lexer.trans (countBreaks_alike m₁ t₂)
        simp only at h
        split at h
        · exact ih hraws ((countBreaks_alike l₁ t₁).symm.trans hcount) h
        · obtain ⟨ht, hlexer⟩ := handOut_alike l₁ t₁
          change (Except.ok (some (l₁.handOut t₁).1), (l₁.handOut t₁).2) = _ at h
          obtain ⟨he, rfl⟩ := Prod.mk.inj h
          cases Except.ok.inj he
          refine ⟨us, u, _, hraws, hlexer.symm.trans hcount, fun hk => ?_⟩
          have hkind : t₂.kind ≠ .semi := by
            rw [kind_of_bare hbare, ← kind_of_bare ht]
            exact hk
          rw [htoken hkind, hbare, ht]

theorem Reads.raws (h : Reads l ts m) (hl : l.pushed = []) : ∃ us m', Raws l us m' ∧ Alike m m' ∧
      ∀ t, ts.getLast? = some t → ∃ us' u, us = us' ++ [u] ∧ (t.kind ≠ .semi → u.bare = t.bare) := by
  induction h with
  | nil => exact ⟨[], l, .nil, .refl l, by simp⟩
  | @snoc ts t m m' before next ih =>
    obtain ⟨us, m₁, hraws, alike, -⟩ := ih
    obtain ⟨us', u, m₂, hraws', alike', hu⟩ := hraws.skipTrivia alike (token_ok (before.pushed hl) next)
    refine ⟨_, m₂, hraws', alike', fun t' ht' => ⟨us', u, rfl, ?_⟩⟩
    obtain rfl : t = t' := by simpa using ht'
    exact hu

end Lexer

/-- The raw token before a token of a text is a line break. -/
def AfterLineEnd (text : String) (t : Token) : Prop :=
  ∃ ts u v l, Lexer.Raws (({} : Lexer).input text) (ts ++ [u, v]) l ∧ u.kind = .lineEnd ∧ v.bare = t.bare

/-- A lexer knows whether the last token that it handed out came after a line break. -/
theorem Lexer.Reads.afterLineEnd {text : String} (h : Reads (({} : Lexer).input text) (ts ++ [t]) m) (hk : t.kind ≠ .semi)
    (hp : m.prev.any (fun u => u.kind = .lineEnd)) : AfterLineEnd text t := by
  obtain ⟨us, m', hraws, alike, hlast⟩ := h.raws rfl
  obtain ⟨us', v, rfl, hv⟩ := hlast t (by simp)
  obtain ⟨-, hprev⟩ := hraws.last rfl
  have hprev' := hprev (by simp)
  rw [dropLast_concat] at hprev'
  have hany := any_kind_of_bare alike.prev (fun k => decide (k = .lineEnd))
  rw [hp, hprev'] at hany
  cases hu : us'.getLast? with
  | none =>
    rw [hu] at hany
    cases hany
  | some u =>
    rw [hu] at hany
    obtain ⟨us'', rfl⟩ := getLast?_eq_some_iff.1 hu
    exact ⟨us'', u, v, m', by simpa using hraws, of_decide_eq_true hany.symm, hv hk⟩

end JsMinify
