import JsMinify.Proofs.Lexer.Lines
import JsMinify.Proofs.Parser.Step

/-!
# What a run has before it

`Ahead` lists the situations that a parser can be in with respect to the next token: not read yet, put
off and waiting, held, or with a made up semicolon before it. A parser has at most one token pushed
back, and none when a text ends (`Ahead.pushed_le`, `pushed_of_ends`).
-/

namespace JsMinify

/-- A token was put off and waits. When it comes again, it has changed only if it may hold line breaks. -/
structure Waits (p : Parser) (t : Token) : Prop where
  pushed : p.lexer.pushed = [t]
  seen : t ∈ p.seen
  solid : t.kind.isTrivia = false
  same : t.kind.mayBreak = false → t.breaks = 0 ∧ t.line = p.lexer.line

/-- A token was handed out and does not wait. -/
structure Holds (p : Parser) (t : Token) : Prop where
  pushed : p.lexer.pushed = []
  line : t.line = p.lexer.line
  solid : t.kind.isTrivia = false
  noBreak : t.kind.mayBreak = false → t.breaks = 0

/-- The situations of a parser between two moves: what was read ahead, what the semicolon ahead was put
before if it is made up, and the token of the text that is still to be shifted. -/
inductive Ahead (p : Parser) : Option (Option Token) → Option (Option Token) → List Token → Prop where
  | unread (pushed : p.lexer.pushed = []) : Ahead p none none []
  | waiting {t : Token} (waits : Waits p t) : Ahead p none none [t]
  | ended (pushed : p.lexer.pushed = []) (rest : p.lexer.rest = []) : Ahead p (some none) none []
  | held {t : Token} (holds : Holds p t) : Ahead p (some (some t)) none [t]
  | semi {s t : Token} (kind : s.kind = .semi) (waits : Waits p t) :
      Ahead p (some (some s)) (some (some t)) [t]
  | lastSemi {s : Token} (kind : s.kind = .semi) (pushed : p.lexer.pushed = [])
      (rest : p.lexer.rest = []) : Ahead p (some (some s)) (some none) []

variable {c : Config}

namespace Ahead

open Lexer

variable {p : Parser} {look before : Option (Option Token)} {ts : List Token}

/-- At most one token is pushed back. -/
theorem pushed_le (h : Ahead p look before ts) : p.lexer.pushed.length ≤ 1 := by
  cases h with
  | unread pushed | ended pushed | lastSemi _ pushed =>
    rw [pushed]
    exact Nat.zero_le 1
  | held holds =>
    rw [holds.pushed]
    exact Nat.zero_le 1
  | waiting waits | semi _ waits =>
    rw [waits.pushed]
    exact Nat.le_refl 1

/-- The next token is read, or the one that waits comes again. -/
theorem read {r : Option Token} {l : Lexer} (h : Ahead p none before ts) (token : p.lexer.token = (.ok r, l)) :
    before = none ∧ ((p.lexer.pushed = [] ∧ ts = [] ∧ Ahead { p with lexer := l } (some r) none r.toList) ∨
        ∃ t t', ts = [t] ∧ r = some t' ∧ t'.bare = t.bare ∧ Alike p.lexer l ∧
          Ahead { p with lexer := l } (some r) none [t']) := by
  cases h with
  | unread pushed =>
    have hh := token_read pushed token
    have hpushed := token_pushed_nil pushed token
    refine ⟨rfl, .inl ⟨pushed, rfl, ?_⟩⟩
    cases r with
    | none => exact .ended hpushed (hh.ended rfl)
    | some t => exact .held ⟨hpushed, hh.line t rfl, hh.solid t rfl, hh.noBreak t rfl⟩
  | @waiting t waits =>
    obtain ⟨l', ht, alike, hpushed, hline⟩ := token_pushed waits.pushed
    rw [token] at ht
    obtain ⟨hr, rfl⟩ := Prod.mk.inj ht
    cases hr
    refine ⟨rfl, .inr ⟨t, _, rfl, rfl, rfl, alike, ?_⟩⟩
    exact .held ⟨hpushed, hline.symm, waits.solid, fun hk => (waits.same hk).1⟩

/-- A shift takes the token of the text, or the semicolon before it. -/
theorem shift {t : Token} (h : Ahead p (some (some t)) before ts) :
    (before = none ∧ ts = [t] ∧ Ahead p none none []) ∨ ∃ look, before = some look ∧ t.kind = .semi ∧ ts = look.toList ∧
        (look = none → p.lexer.rest = []) ∧ Ahead p none none ts := by
  cases h with
  | held holds => exact .inl ⟨rfl, rfl, .unread holds.pushed⟩
  | semi kind waits => exact .inr ⟨_, rfl, kind, rfl, by simp, .waiting waits⟩
  | lastSemi kind pushed rest => exact .inr ⟨_, rfl, kind, rfl, fun _ => rest, .unread pushed⟩

/-- What is put off waits behind a semicolon. -/
theorem putOff {look : Option Token} (h : Ahead c.parser (some look) before ts)
    (fresh : ∀ t, look = some t → t ∉ c.parser.seen ∧ t.kind ≠ .semi) :
    before = none ∧ ts = look.toList ∧ Ahead (c.putOffBy look).parser (c.putOffBy look).ahead (some look) ts := by
  cases h with
  | ended pushed rest =>
    refine ⟨rfl, rfl, .lastSemi rfl ?_ rest⟩
    exact pushed
  | @held t holds =>
    have hpushed : t :: c.parser.lexer.pushed = [t] := by rw [holds.pushed]
    refine ⟨rfl, rfl, .semi rfl ⟨hpushed, List.mem_cons_self, holds.solid, fun hk => ?_⟩⟩
    refine ⟨holds.noBreak hk, ?_⟩
    show t.line = c.parser.lexer.line + t.breaks
    rw [holds.noBreak hk]
    exact holds.line
  | semi kind _ | lastSemi kind _ _ => exact absurd kind (fresh _ rfl).2

end Ahead

namespace Config

open Grammar

/-- A step leads from one situation between two moves to another. -/
theorem ahead_step {c' : Config} (h : ∃ before ts, Ahead c.parser c.ahead before ts)
    (hs : c.step = .next c') : ∃ before ts, Ahead c'.parser c'.ahead before ts := by
  obtain ⟨before, ts, h⟩ := h
  cases goes_of_step hs with
  | reduce _ _ _ => exact ⟨before, ts, h⟩
  | read _ unread token =>
    rw [unread] at h
    rcases h.read token with ⟨-, ⟨-, -, h'⟩ | ⟨_, _, -, -, -, -, h'⟩⟩
    · exact ⟨_, _, h'⟩
    · exact ⟨_, _, h'⟩
  | shift _ look _ =>
    rw [look] at h
    rcases h.shift with ⟨-, -, h'⟩ | ⟨_, -, -, -, -, h'⟩
    · exact ⟨_, _, h'⟩
    · exact ⟨_, _, h'⟩
  | putOff _ ahead _ _ fresh =>
    rw [ahead] at h
    exact ⟨_, _, (h.putOff fresh).2.2⟩

/-- When a run ends with a tree or an error, nothing is left pushed back. -/
theorem pushed_of_ends {progress : Progress} {before : Option (Option Token)}
    {ts : List Token} (h : Ahead c.parser c.ahead before ts) (ends : Ends c progress) :
    (∀ tree p, progress = .accepted tree p → p.lexer.pushed = []) ∧
      ∀ e p, progress = .failed e p → e ≠ .stuck → p.lexer.pushed = [] := by
  have htoken : c.parser.lexer.token.2.pushed = [] := by
    have hone := h.pushed_le
    have hlen := Lexer.token_pushed_length c.parser.lexer
    rw [← List.length_eq_zero_iff]
    omega
  refine ⟨fun tree p hp => ?_, fun e p hp he => ?_⟩
  · cases ends with
    | accepted ahead =>
      obtain ⟨-, rfl⟩ := Progress.accepted.inj hp
      rw [ahead] at h
      cases h with
      | ended pushed _ => exact pushed
    | _ => cases hp
  · cases ends with
    | accepted => cases hp
    | unreadable _ token =>
      obtain ⟨-, rfl⟩ := Progress.failed.inj hp
      rwa [token] at htoken
    | rejected _ _ =>
      obtain ⟨-, rfl⟩ := Progress.failed.inj hp
      exact htoken
    | noHandle | noTree => exact absurd (Progress.failed.inj hp).1.symm he

end Config

end JsMinify
