import JsMinify.Proofs.Lexer.Streams
import JsMinify.Proofs.Parser.Termination

/-!
# Semicolons made up

`record` follows a run and notes the tokens that are shifted, with what a made up semicolon was put
before. `Kept` is the invariant: the tokens of the text that were shifted, and the one that is next, are
what the lexer hands out, and every semicolon made up stands before the token that was put off, where the
language allows one.
-/

namespace JsMinify

open List Grammar Lexer

variable {c : Config} {l l' : Lexer} {ts due' : List Token} {t : Token} {shifted : List Shifted} {look : Option Token}
  {text : String} {r : Recorded}

/-- A token that was shifted. -/
structure Shifted where
  token : Token
  /-- What the token was put before, if it is a semicolon made up. -/
  before : Option (Option Token) := none

/-- The tokens of the text among those shifted. -/
def ofText (ts : List Shifted) : List Token := (ts.filter (·.before.isNone)).map (·.token)

/-- A run, with the tokens shifted so far. -/
structure Recorded where
  config : Config
  /-- What the token ahead was put before, if it is a semicolon made up. -/
  before : Option (Option Token) := none
  shifted : List Shifted := []

/-- Notes what a move did: a token ahead that is gone was shifted, and one that another took the place of
was put off. -/
def Recorded.follow (r : Recorded) (c : Config) : Recorded :=
  match r.config.ahead, c.ahead with
  | some (some t), none => { config := c, shifted := r.shifted ++ [⟨t, r.before⟩] }
  | some look, some (some s) =>
    if look = some s then { r with config := c } else { r with config := c, before := some look }
  | _, _ => { r with config := c }

/-- Follows a run to its end. -/
def record : Nat → Recorded → Recorded
  | 0, r => r
  | fuel + 1, r =>
    match r.config.step with
    | .next c => record fuel (r.follow c)
    | _ => r

/-- The tokens shifted when a text is parsed. -/
def shiftedIn (text : String) : List Shifted :=
  (record (Parser.budget text.length) { config := Config.start text }).shifted

/-- A semicolon may be made up before the end of the text, a closing brace, or a token after a line
break. -/
def SemiAllowed (text : String) : Option Token → Prop
  | none => True
  | some t => t.kind = .rbrace ∨ AfterLineEnd text t

/-! ## The stream of tokens -/

/-- Some tokens are, but for lines, the first that the lexer hands out for a text. -/
def Handing (text : String) (l : Lexer) (ts : List Token) : Prop :=
  ∃ read m, Reads (({} : Lexer).input text) read m ∧ read.map Token.bare = ts.map Token.bare ∧ Alike l m

/-- Some tokens are, but for lines, all that the lexer hands out for a text. -/
def Drained (text : String) (ts : List Token) : Prop :=
  (tokenize text).1.map Token.bare = ts.map Token.bare ∧ (tokenize text).2.1 = .ok ()

theorem Handing.alike (h : Handing text l ts) (alike : Alike l l') : Handing text l' ts := by
  obtain ⟨read, m, hreads, hts, hm⟩ := h
  exact ⟨read, m, hreads, hts, alike.symm.trans hm⟩

/-- Reading on hands out one more token, or all have been handed out. -/
theorem Handing.read {r : Option Token} (h : Handing text l ts) (hp : l.pushed = [])
    (token : l.token = (.ok r, l')) : (∃ t, r = some t ∧ Handing text l' (ts ++ [t])) ∨ (r = none ∧ Drained text ts) := by
  obtain ⟨read, m, hreads, hts, alike⟩ := h
  have hsame := token_alike alike hp (hreads.pushed rfl)
  rw [token] at hsame
  generalize hm : m.token = r' at hsame
  cases hsame with
  | ok htoken lexer =>
    cases r with
    | none =>
      obtain rfl := Option.map_eq_none_iff.1 htoken.symm
      have hdrain : tokenize text = _ := hreads.drain rfl hm
      refine .inr ⟨rfl, ?_⟩
      rw [Drained, hdrain]
      exact ⟨hts, rfl⟩
    | some t =>
      obtain ⟨t', rfl, hbare⟩ := Option.map_eq_some_iff.1 htoken.symm
      refine .inl ⟨t, rfl, _, _, hreads.snoc hm, ?_, lexer⟩
      rw [map_append, map_append, hts]
      simp [hbare]

/-- Where the lexer allows a semicolon, the language does. -/
theorem Handing.semiAllowed (h : Handing text l (ts ++ [t])) (hk : t.kind ≠ .semi)
    (ha : l.semiAllowed (some t)) : SemiAllowed text (some t) := by
  simp only [Lexer.semiAllowed, Bool.or_eq_true, decide_eq_true_eq] at ha
  rcases ha with hbrace | hprev
  · exact .inl hbrace
  · obtain ⟨read, m, hreads, hts, alike⟩ := h
    rw [map_append, map_cons, map_nil, map_eq_append_iff] at hts
    obtain ⟨read', last, rfl, -, hlast⟩ := hts
    obtain ⟨t', rest, rfl, hbare, hrest⟩ := map_eq_cons_iff.1 hlast
    obtain rfl := map_eq_nil_iff.1 hrest
    have hkind : t'.kind ≠ .semi := by
      rw [kind_of_bare hbare]
      exact hk
    have hany := any_kind_of_bare alike.prev (fun k => decide (k = .lineEnd))
    obtain ⟨us, u, v, m', hraws, hu, hv⟩ := hreads.afterLineEnd hkind (hany ▸ hprev)
    exact .inr ⟨us, u, v, m', hraws, hu, hv.trans hbare⟩

/-! ## The record of a run -/

theorem ofText_append (xs ys : List Shifted) : ofText (xs ++ ys) = ofText xs ++ ofText ys := by
  simp [ofText]

/-- A semicolon was made up where one may be, and stands before what it was put before. -/
structure WellPlaced (text : String) (s : Shifted) (look : Option Token) (following : List Token) :
    Prop where
  kind : s.token.kind = .semi
  allowed : SemiAllowed text look
  next : following.head?.map Token.bare = look.map Token.bare

/-- The semicolons made up are well placed, if some token of the text is still to come. -/
def InPlace (text : String) (shifted : List Shifted) (due : List Token) : Prop :=
  ∀ xs s ys look, shifted = xs ++ s :: ys → s.before = some look → WellPlaced text s look (ofText ys ++ due)

/-- The invariant of a record, with the token of the text that is still to be shifted. -/
structure Kept (text : String) (r : Recorded) (due : List Token) : Prop where
  ahead : Ahead r.config.parser r.config.ahead r.before due
  inPlace : InPlace text r.shifted due
  allowed : ∀ look, r.before = some look → SemiAllowed text look
  stream : (r.config.ahead ≠ some none ∧ Handing text r.config.parser.lexer (ofText r.shifted ++ due)) ∨
    (due = [] ∧ r.config.parser.lexer.rest = [] ∧ Drained text (ofText r.shifted))
  last : ∀ s ∈ r.shifted, s.before = some none → r.config.parser.lexer.rest = []

/-- One more token is shifted. -/
theorem InPlace.snoc {due : List Token} {x : Shifted} (h : InPlace text shifted due) (hdue : due = ofText [x] ++ due')
    (hx : ∀ look, x.before = some look → WellPlaced text x look due') :
    InPlace text (shifted ++ [x]) due' := by
  intro xs s ys look he hb
  rcases eq_nil_or_concat ys with rfl | ⟨ys', y, rfl⟩
  · obtain ⟨-, hs⟩ := append_inj' he rfl
    obtain rfl := (List.cons.inj hs).1
    exact hx look hb
  · rw [concat_eq_append] at he ⊢
    have he' : shifted ++ [x] = (xs ++ s :: ys') ++ [y] := by rw [he]; simp
    obtain ⟨rfl, hy⟩ := append_inj' he' rfl
    obtain rfl := (List.cons.inj hy).1
    rw [ofText_append, append_assoc, ← hdue]
    exact h xs s ys' look rfl hb

/-- The token still to come may change its line, and one may come where none was due, unless a semicolon
was put before the end. -/
theorem InPlace.due {due : List Token} (h : InPlace text shifted due) (hdue : due.map Token.bare = due'.map Token.bare ∨
      due = [] ∧ ∀ s ∈ shifted, s.before ≠ some none) : InPlace text shifted due' := by
  intro xs s ys look he hb
  obtain ⟨kind, allowed, next⟩ := h xs s ys look he hb
  refine ⟨kind, allowed, ?_⟩
  rw [← next]
  rcases hdue with hsame | ⟨rfl, hend⟩
  · rw [← head?_map, ← head?_map, map_append, map_append, hsame]
  · cases hys : ofText ys with
    | cons t ts => rfl
    | nil =>
      -- Nothing of the text follows, so the semicolon was put before the end.
      rw [hys] at next
      obtain rfl := Option.map_eq_none_iff.1 next.symm
      exact absurd hb (hend s (by simp [he]))

/-! ## Moves -/

theorem follow_config (r : Recorded) (c : Config) : (r.follow c).config = c := by
  unfold Recorded.follow
  split
  · rfl
  · split <;> rfl
  · rfl

theorem follow_reduced (rule : Rule) : r.follow (r.config.reduced rule) = { r with config := r.config.reduced rule } := by
  have hsame : (r.config.reduced rule).ahead = r.config.ahead := rfl
  unfold Recorded.follow
  rw [hsame]
  split
  · next h₁ h₂ =>
    rw [h₁] at h₂
    cases h₂
  · next h₁ h₂ =>
    rw [if_pos (Option.some.inj (h₁.symm.trans h₂))]
  · rfl

theorem follow_unread (h : r.config.ahead = none) : r.follow c = { r with config := c } := by
  unfold Recorded.follow
  rw [h]

theorem follow_shift (h : r.config.ahead = some (some t)) (hc : c.ahead = none) :
    r.follow c = { config := c, shifted := r.shifted ++ [⟨t, r.before⟩] } := by
  unfold Recorded.follow
  rw [h, hc]

theorem follow_putOff (h : r.config.ahead = some look)
    (fresh : ∀ t, look = some t → t ∉ r.config.parser.seen ∧ t.kind ≠ .semi) :
    r.follow (r.config.putOffBy look) = { r with config := r.config.putOffBy look, before := some look } := by
  unfold Recorded.follow
  rw [h]
  cases look with
  | none => rfl
  | some t =>
    refine if_neg fun hsemi => ?_
    exact (fresh _ hsemi).2 rfl

/-- What each step keeps holds at the end of the record. -/
theorem record_keeps {P : Recorded → Prop} (step : ∀ r c, P r → r.config.step = .next c → P (r.follow c))
    (h : P r) (fuel : Nat) : P (record fuel r) := by
  induction fuel generalizing r with
  | zero => exact h
  | succ fuel ih =>
    rw [record]
    split
    · next hs => exact ih (step r _ h hs)
    · exact h

variable {due : List Token} {tree : Node} {p : Parser}

theorem Kept.read (h : Kept text r due) {t : Option Token} (unread : r.config.ahead = none)
    (token : r.config.parser.lexer.token = (.ok t, l)) : ∃ due', Kept text { r with
        config := { r.config with parser := { r.config.parser with lexer := l }, ahead := some t } }
      due' := by
  have ha := h.ahead
  rw [unread] at ha
  obtain ⟨hbefore, ⟨hp, rfl, ha'⟩ | ⟨u, t', rfl, rfl, hbare, alike, ha'⟩⟩ := ha.read token
  · have hread := token_read hp token
    have hlast : ∀ s ∈ r.shifted, s.before = some none → t = none :=
      fun s hs hb => hread.eq_none (h.last s hs hb)
    refine ⟨t.toList, ⟨by rw [hbefore]; exact ha', ?_, h.allowed, ?_, fun s hs hb => ?_⟩⟩
    · cases t with
      | none => exact h.inPlace
      | some t =>
        refine h.inPlace.due (.inr ⟨rfl, fun s hs hb => ?_⟩)
        cases hlast s hs hb
    · rcases h.stream with ⟨-, hhand⟩ | ⟨-, hrest, hdrained⟩
      · rcases hhand.read hp token with ⟨u, rfl, hhand'⟩ | ⟨rfl, hdrained⟩
        · exact .inl ⟨by simp, by simpa using hhand'⟩
        · exact .inr ⟨rfl, hread.ended rfl, by simpa using hdrained⟩
      · obtain rfl := hread.eq_none hrest
        exact .inr ⟨rfl, hread.ended rfl, hdrained⟩
    · exact hread.ended (hlast s hs hb)
  · refine ⟨[t'], ⟨by rw [hbefore]; exact ha', ?_, h.allowed, ?_, fun s hs hb => ?_⟩⟩
    · exact h.inPlace.due (.inl (by simp [hbare]))
    · rcases h.stream with ⟨-, hhand⟩ | ⟨hdue, -⟩
      · obtain ⟨read, m, hreads, hts, hm⟩ := hhand.alike alike
        exact .inl ⟨by simp, read, m, hreads, by simpa [hbare] using hts, hm⟩
      · cases hdue
    · exact alike.rest.symm.trans (h.last s hs hb)

theorem Kept.shift (h : Kept text r due) (look : r.config.ahead = some (some t)) (hahead : c.ahead = none)
    (hparser : c.parser = r.config.parser) :
    ∃ due', Kept text { config := c, shifted := r.shifted ++ [⟨t, r.before⟩] } due' := by
  have ha := h.ahead
  rw [look] at ha
  rcases ha.shift with ⟨hbefore, rfl, ha'⟩ | ⟨put, hbefore, hkind, hdue, hrest, ha'⟩
  · -- A token of the text is shifted.
    rw [hbefore]
    refine ⟨[], ⟨?_, h.inPlace.snoc rfl (by simp), by simp, ?_, ?_⟩⟩
    · rw [hahead, hparser]
      exact ha'
    · rcases h.stream with ⟨-, hhand⟩ | ⟨hdue, -⟩
      · refine .inl ⟨by simp [hahead], ?_⟩
        rw [hparser, ofText_append, append_nil]
        exact hhand
      · cases hdue
    · intro s hs hb
      rw [hparser]
      rcases mem_append.1 hs with hs | hs
      · exact h.last s hs hb
      · obtain rfl := mem_singleton.1 hs
        cases hb
  · -- A semicolon made up is shifted, and what it was put before is still due.
    rw [hbefore]
    have htext : ofText (r.shifted ++ [⟨t, some put⟩]) = ofText r.shifted := by
      rw [ofText_append]
      exact append_nil _
    refine ⟨due, ⟨?_, h.inPlace.snoc rfl ?_, by simp, ?_, ?_⟩⟩
    · rw [hahead, hparser]
      exact ha'
    · intro look hlook
      cases hlook
      exact ⟨hkind, h.allowed _ hbefore, by rw [hdue]; cases put <;> rfl⟩
    · rw [hparser, htext]
      rcases h.stream with ⟨-, hhand⟩ | hdrained
      · exact .inl ⟨by simp [hahead], hhand⟩
      · exact .inr hdrained
    · intro s hs hb
      rw [hparser]
      rcases mem_append.1 hs with hs | hs
      · exact h.last s hs hb
      · obtain rfl := mem_singleton.1 hs
        exact hrest (Option.some.inj hb)

theorem putOffBy_alike (c : Config) (look : Option Token) : Alike c.parser.lexer (c.putOffBy look).parser.lexer := by
  cases look <;> exact ⟨rfl, rfl, rfl, rfl, rfl, rfl⟩

theorem Kept.putOff (h : Kept text r due) (ahead : r.config.ahead = some look)
    (allowed : r.config.parser.lexer.semiAllowed look)
    (fresh : ∀ t, look = some t → t ∉ r.config.parser.seen ∧ t.kind ≠ .semi) :
    Kept text { r with config := r.config.putOffBy look, before := some look } due := by
  have ha := h.ahead
  rw [ahead] at ha
  obtain ⟨-, hdue, ha'⟩ := ha.putOff fresh
  have alike := putOffBy_alike r.config look
  refine ⟨ha', h.inPlace, ?_, ?_, fun s hs hb => alike.rest.symm.trans (h.last s hs hb)⟩
  · intro look' hlook
    cases hlook
    cases look with
    | none => trivial
    | some t =>
      rcases h.stream with ⟨-, hhand⟩ | ⟨hnil, -⟩
      · rw [hdue] at hhand
        exact hhand.semiAllowed (fresh t rfl).2 allowed
      · rw [hdue] at hnil
        cases hnil
  · rcases h.stream with ⟨-, hhand⟩ | ⟨hnil, hrest, hdrained⟩
    · exact .inl ⟨by simp [Config.putOffBy], hhand.alike alike⟩
    · exact .inr ⟨hnil, alike.rest.symm.trans hrest, hdrained⟩

/-- Each step keeps the tokens in their order. -/
theorem Kept.step (h : Kept text r due) (hs : r.config.step = .next c) : ∃ due', Kept text (r.follow c) due' := by
  cases Config.goes_of_step hs with
  | reduce =>
    rw [follow_reduced]
    exact ⟨due, h.ahead, h.inPlace, h.allowed, h.stream, h.last⟩
  | read _ unread token =>
    rw [follow_unread unread]
    exact h.read unread token
  | shift _ look _ =>
    rw [follow_shift look rfl]
    exact h.shift look rfl rfl
  | @putOff look _ ahead _ allowed fresh =>
    rw [follow_putOff ahead fresh]
    exact ⟨due, h.putOff ahead allowed fresh⟩

/-- So does a whole run. -/
theorem Kept.record (h : Kept text r due) (fuel : Nat) : ∃ due', Kept text (record fuel r) due' := by
  refine record_keeps (P := fun r => ∃ due, Kept text r due) ?_ ⟨due, h⟩ fuel
  rintro r c ⟨due, h⟩ hs
  exact h.step hs

/-- The record of a run ends where the run does. -/
theorem record_accepted {fuel : Nat} (h : Config.run fuel r.config = (.ok tree, p)) :
    (record fuel r).config.step = .accepted tree p := by
  induction fuel generalizing r with
  | zero => cases (Prod.mk.inj h).1
  | succ fuel ih =>
    rw [Config.run] at h
    rw [record]
    cases hs : r.config.step with
    | next c =>
      rw [hs] at h
      rw [← follow_config r c] at h
      exact ih h
    | accepted tree' p' =>
      rw [hs] at h
      obtain ⟨hr, rfl⟩ := Prod.mk.inj h
      cases hr
      exact hs
    | failed e p' =>
      rw [hs] at h
      cases (Prod.mk.inj h).1

theorem start_kept (text : String) : Kept text { config := Config.start text } [] := by
  refine ⟨.unread rfl, ?_, by simp, .inl ⟨by simp [Config.start], [], _, .nil, rfl, .refl _⟩, by simp⟩
  intro xs s ys look he
  cases xs <;> cases he

/-! ## Whole texts -/

/-- When a parse returns or fails, nothing is left pushed back. -/
theorem parse_pushed (text : String) : (parse text).2.lexer.pushed = [] := by
  obtain ⟨n, c, hafter, hresult⟩ := run_ends text
  have hc : c.Regular := hafter.keeps (fun _ _ => Config.Regular.step) (Config.start_regular text)
  obtain ⟨before, ts, ha⟩ := hc.ahead
  have hends : Config.Ends c c.step := by
    refine Config.ends_of_step rfl fun c' hn => ?_
    rw [hn] at hresult
    cases hresult
  obtain ⟨haccepted, hfailed⟩ := Config.pushed_of_ends ha hends
  cases hs : c.step with
  | next c' =>
    rw [hs] at hresult
    cases hresult
  | accepted tree p =>
    rw [hs] at hresult
    rw [← Option.some.inj hresult]
    exact haccepted tree p hs
  | failed e p =>
    rw [hs] at hresult
    rw [← Option.some.inj hresult]
    refine hfailed e p hs ?_
    rintro rfl
    exact hc.stacked.step_ne_stuck p hs

/-- At the end of a parsed text, all its tokens have been shifted. -/
theorem Kept.accepted (h : Kept text r due)
    (hs : r.config.step = .accepted tree p) : Drained text (ofText r.shifted) ∧ due = [] := by
  cases Config.ends_of_step hs (fun _ => Progress.noConfusion) with
  | accepted ahead =>
    rcases h.stream with ⟨hne, -⟩ | ⟨hdue, -, hdrained⟩
    · exact absurd ahead hne
    · exact ⟨hdrained, hdue⟩

/-- Making up semicolons neither loses nor doubles nor moves a token. While any text is parsed at most one
token is pushed back, and none afterwards. If the text has a tree, then the tokens shifted, without the
semicolons made up, are those of the text, and every semicolon made up stands before the end of the text, a
closing brace or a token after a line break. -/
theorem parse_keeps_tokens (text : String) :
    (∀ n c, Config.After n (Config.start text) c → c.parser.lexer.pushed.length ≤ 1) ∧ (parse text).2.lexer.pushed = [] ∧
      ∀ tree p, parse text = (.ok tree, p) →
        (ofText (shiftedIn text)).map Token.bare = (tokenize text).1.map Token.bare ∧ (tokenize text).2.1 = .ok () ∧
          ∀ xs s ys look, shiftedIn text = xs ++ s :: ys → s.before = some look → WellPlaced text s look (ofText ys) := by
  refine ⟨fun n c hafter => ?_, parse_pushed text, fun tree p hparse => ?_⟩
  · have hc : c.Regular := hafter.keeps (fun _ _ => Config.Regular.step) (Config.start_regular text)
    obtain ⟨before, ts, ha⟩ := hc.ahead
    exact ha.pushed_le
  · obtain ⟨due, h⟩ := (start_kept text).record (Parser.budget text.length)
    obtain ⟨⟨htokens, hend⟩, rfl⟩ := h.accepted (record_accepted hparse)
    refine ⟨htokens.symm, hend, fun xs s ys look he hb => ?_⟩
    have := h.inPlace xs s ys look he hb
    rwa [List.append_nil] at this

/-- Three statements without semicolons, the first in a block. -/
theorem parse_keeps_tokens_of_statements : ∃ tree p, parse "\x7ba\x7db\nc" = (.ok tree, p) ∧
      (shiftedIn "\x7ba\x7db\nc").map (fun s => (s.token.text, s.before.isSome)) =
        [("\x7b", false), ("a", false), (";", true), ("\x7d", false), ("b", false), (";", true), ("c", false), (";", true)] ∧
      (ofText (shiftedIn "\x7ba\x7db\nc")).map Token.bare = (tokenize "\x7ba\x7db\nc").1.map Token.bare := by
  have hok : (parse "\x7ba\x7db\nc").1.isOk = true := by decide +kernel
  rcases hparse : parse "\x7ba\x7db\nc" with ⟨e | tree, p⟩
  · rw [hparse] at hok
    cases hok
  · exact ⟨tree, p, rfl, by decide +kernel, ((parse_keeps_tokens _).2.2 tree p hparse).1⟩

end JsMinify
