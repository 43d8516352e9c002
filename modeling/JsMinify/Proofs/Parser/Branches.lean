import JsMinify.Proofs.Parser.Chains
import JsMinify.Proofs.Parser.Reuse

/-!
# Which `if` an `else` belongs to

The grammar leaves it open which `if` takes an `else`. Here are texts with some `if`s one after the other, a statement, and
some `else`s: each `else` is taken by the innermost `if` that has none yet (`parse_branches`). There are derivations that
take it so, and the parser finds them. If there are more `else`s than `if`s, there is no derivation at all: no rule has more
of them on its right side (`Derivation.Valid.else_le`). Such a text is refused at a token, since all its tokens can be read
(`parse_error`).
-/

namespace JsMinify

open List Grammar Along

variable {alts conds : List String} {text : String} {ws : List Word} {body : Node} {p : Parser} {r : Recorded}
  {due : List Token} {e : ParseError} {k : TokenKind}

/-! ## Errors -/

/-- If all tokens of a text can be read, the next one can be, as long as some are left. -/
theorem Handing.readable {l : Lexer} {ts : List Token} (h : Handing text l ts) (hp : l.pushed = [])
    (hok : (tokenize text).2.1 = .ok ()) : ∃ look l', l.token = (.ok look, l') := by
  obtain ⟨read, m, hreads, -, alike⟩ := h
  have hsame := Lexer.token_alike alike hp (hreads.pushed rfl)
  rcases htoken : l.token with ⟨e | look, l'⟩
  · rw [htoken] at hsame
    generalize hm : m.token = r at hsame
    cases hsame with
    | error =>
      obtain ⟨k, hk⟩ := hreads.drain_eq rfl
      rw [tokenize, hk, Lexer.drainFrom, hm] at hok
      cases hok
  · exact ⟨look, l', rfl⟩

/-- If all tokens of a text can be read, the next one can be read at any time. -/
theorem Kept.readable (h : Kept text r due) (hloaded : r.config.parser.lexer.loaded)
    (hok : (tokenize text).2.1 = .ok ()) : ∃ look l, r.config.parser.lexer.token = (.ok look, l) := by
  have hle := h.ahead.pushed_le
  cases hpushed : r.config.parser.lexer.pushed with
  | nil =>
    rcases h.stream with ⟨-, hhanding⟩ | ⟨-, hrest, -⟩
    · exact hhanding.readable hpushed hok
    · rw [Lexer.token_of_loaded hloaded hpushed, hrest]
      exact ⟨none, _, by simp [Lexer.skipTrivia, hrest, Lexer.advance, Lexer.scan, Lexer.scanFrom]; rfl⟩
  | cons t rest =>
    rw [hpushed] at hle
    obtain rfl : rest = [] := length_eq_zero_iff.1 (Nat.le_zero.1 (Nat.le_of_succ_le_succ hle))
    obtain ⟨l', htoken, -⟩ := Lexer.token_pushed hpushed
    exact ⟨_, l', htoken⟩

theorem Kept.failed (h : Kept text r due) (hloaded : r.config.parser.lexer.loaded)
    (hok : (tokenize text).2.1 = .ok ()) (hs : r.config.step = .failed e p) :
    e = .stuck ∨ ∃ t before after, e = .unexpected t before after := by
  obtain ⟨look, l, htoken⟩ := h.readable hloaded hok
  cases Config.ends_of_step hs (fun _ => Progress.noConfusion) with
  | unreadable _ token =>
    rw [htoken] at token
    cases token
  | @rejected t _ _ error =>
    rcases error with hunexpected | ⟨_, _, token, -⟩
    · exact .inr ⟨t, hunexpected⟩
    · rw [htoken] at token
      cases token
  | noHandle | noTree => exact .inl rfl

/-- If all tokens of a text can be read, it is refused only because one of them does not fit. -/
theorem parse_error (h : parse text = (.error e, p)) (hok : (tokenize text).2.1 = .ok ()) :
    ∃ t before after, e = .unexpected t before after := by
  obtain ⟨n, c, hafter, hresult⟩ := run_ends text
  have hregular : c.Regular := hafter.keeps (fun _ _ => Config.Regular.step) (Config.start_regular text)
  have hsettled : c.Settled := hafter.keeps (fun _ _ => Config.Settled.step) (start_settled text)
  obtain ⟨r, due, rfl, hkept⟩ : ∃ r due, r.config = c ∧ Kept text r due := by
    refine hafter.keeps (I := fun c => ∃ r due, r.config = c ∧ Kept text r due) ?_
      ⟨{ config := Config.start text }, [], rfl, start_kept text⟩
    rintro _ c' ⟨r, due, rfl, hkept⟩ hs
    obtain ⟨due', hkept'⟩ := hkept.step hs
    exact ⟨_, due', follow_config r c', hkept'⟩
  rw [h] at hresult
  cases hs : r.config.step with
  | next c | accepted tree q => rw [hs] at hresult; cases hresult
  | failed e' q =>
    rw [hs] at hresult
    obtain ⟨he, -⟩ := Prod.mk.inj (Option.some.inj hresult)
    cases he
    refine (hkept.failed hsettled.loaded hok hs).resolve_left ?_
    rintro rfl
    exact hregular.stacked.step_ne_stuck q hs

/-! ## Counting -/

namespace Grammar

/-- No rule has more `else`s than `if`s on its right side. -/
theorem rules_pair_else : ∀ r ∈ rules, r.right.count (.t .kwElse) ≤ r.right.count (.t .kwIf) := by decide +kernel

namespace Derivation

/-- The `else`s below some symbols are no more than the `if`s, if those among the symbols are not counted. -/
theorem else_le_all {ds : List Derivation} (h : ∀ d ∈ ds, d.kinds.count .kwElse + [d.symbol].count (.t .kwIf) ≤
      d.kinds.count .kwIf + [d.symbol].count (.t .kwElse)) :
    (ds.flatMap kinds).count .kwElse + (ds.map symbol).count (.t .kwIf) ≤
      (ds.flatMap kinds).count .kwIf + (ds.map symbol).count (.t .kwElse) := by
  induction ds with
  | nil => exact Nat.le_refl _
  | cons d ds ih =>
    obtain ⟨hd, hds⟩ := forall_mem_cons.1 h
    have hlater := ih hds
    rw [flatMap_cons, map_cons, count_append, count_append, ← singleton_append, count_append, count_append]
    omega

theorem Valid.else_le {d : Derivation} (h : d.Valid) : d.kinds.count .kwElse + [d.symbol].count (.t .kwIf) ≤
    d.kinds.count .kwIf + [d.symbol].count (.t .kwElse) := by
  induction h with
  | token t => simp [kinds, tokens, symbol, count_singleton]; omega
  | @rule r line below listed spells _ ih =>
    have hbelow := else_le_all ih
    have hrule := rules_pair_else r listed
    rw [spells] at hbelow
    rw [kinds_rule, symbol, count_singleton, count_singleton]
    simp only [beq_iff_eq, reduceCtorEq, if_false]
    omega

end Derivation

end Grammar

/-- Made up semicolons aside, the tokens shifted are those of the text. -/
theorem count_ofText {ts : List Shifted} (h : ∀ s ∈ ts, s.before.isSome → s.token.kind = .semi)
    (hk : k ≠ .semi) : (ts.map (·.token.kind)).count k = ((ofText ts).map (·.kind)).count k := by
  induction ts with
  | nil => rfl
  | cons s ts ih =>
    obtain ⟨hs, hts⟩ := forall_mem_cons.1 h
    rw [map_cons, count_cons, ih hts]
    cases hb : s.before with
    | none => simp [ofText, hb, count_cons]
    | some look =>
      have hsemi := hs (by rw [hb]; rfl)
      simp [ofText, hb, hsemi, Ne.symm hk]

/-- A text with a tree has no more `else`s than `if`s. -/
theorem else_le_of_parse {tree : Node} (h : parse text = (.ok tree, p)) :
    ((tokenize text).1.map (·.kind)).count .kwElse ≤ ((tokenize text).1.map (·.kind)).count .kwIf := by
  obtain ⟨due, hkept⟩ := (start_kept text).record (Parser.budget text.length)
  obtain ⟨d, hvalid, hsymbol, htokens, -⟩ := ((start_traced text).record _).accepted (record_accepted h)
  obtain ⟨⟨hbare, -⟩, -⟩ := hkept.accepted (record_accepted h)
  generalize (record (Parser.budget text.length) { config := Config.start text }) = r at *
  have hmade : ∀ s ∈ r.shifted, s.before.isSome → s.token.kind = .semi := by
    intro s hs hb
    obtain ⟨look, hlook⟩ := Option.isSome_iff_exists.1 hb
    obtain ⟨xs, ys, hsplit⟩ := append_of_mem hs
    exact (hkept.inPlace xs s ys look hsplit hlook).kind
  have hkinds : (ofText r.shifted).map (·.kind) = (tokenize text).1.map (·.kind) := by
    have := congrArg (List.map Token.kind) hbare.symm
    rwa [map_map, map_map] at this
  have hshifted : d.kinds = r.shifted.map (·.token.kind) := by rw [Derivation.kinds, htokens, map_map]; rfl
  have hle := hvalid.else_le
  rw [hsymbol, hshifted, count_ofText hmade (by decide), count_ofText hmade (by decide), hkinds] at hle
  simpa [count_singleton] using hle

/-! ## Texts -/

namespace Grammar

variable {shows : Kind → Bool} {ends : TokenKind → Bool}

/-- A name as a statement. -/
def nameStmt (x : String) : Node := .node .exprStmt {} [nameExpr x]

/-- `if`s around a statement, from the innermost one on. Each takes the next alternative, as long as there are any. -/
def nestIfs (body : Node) : (conds alts : List String) → Node
  | [], _ => body
  | x :: conds, [] => nestIfs (.node .ifStmt {} [nameExpr x, body, .absent]) conds []
  | x :: conds, a :: alts => nestIfs (.node .ifStmt {} [nameExpr x, body, nameStmt a]) conds alts

def elsesText : List String → String
  | [] => ""
  | a :: alts => "else " ++ (a ++ (";" ++ elsesText alts))

def ifsText (text : String) : List String → String
  | [] => text
  | x :: conds => "if(" ++ x ++ ")" ++ ifsText text conds

def ifWords (x : String) : List Word := [TokenKind.kwIf.word, TokenKind.lparen.word, (.identifier, x), TokenKind.rparen.word]

def elseWords (a : String) : List Word := [TokenKind.kwElse.word, (.identifier, a), TokenKind.semi.word]

/-- A name and a semicolon. -/
theorem met_nameStmt (shows : Kind → Bool) (x : String) :
    (Demand.closed (.n .statement) [(.identifier, x), TokenKind.semi.word] (.node (nameStmt x))).Met shows :=
  met_exprStatement ((met_nameExpr shows x).climb (v := .noBrace) (rfl : Level.comma.covers 20 .primary))

theorem met_condition (shows : Kind → Bool) (x : String) :
    (Demand.closed expr [(.identifier, x)] (.node (nameExpr x))).Met shows :=
  (met_nameExpr shows x).to_plain.climb (v := .plain) (rfl : Level.comma.covers 20 .primary)

/-- An `if` without an alternative. -/
theorem met_if (x : String) (h : Demand.Met shows ⟨.n .statement, ws, .node body, ends⟩) :
    Demand.Met shows ⟨.n .statement, ifWords x ++ ws, .node (.node .ifStmt {} [nameExpr x, body, .absent]), fun _ => true⟩ := by
  obtain ⟨t, ht⟩ := exists_word shows .kwIf
  obtain ⟨t', ht'⟩ := exists_word shows .lparen
  obtain ⟨u, hu⟩ := exists_word shows .rparen
  have hmet := Demand.Met.rule (r := ⟨.ifStatement, [.t .kwIf, .t .lparen, expr, .t .rparen, .n .statement],
      .make .ifStmt 2 [.part 2, .part 4, .nothing]⟩) (by decide) [_, _, _, _, _]
    (by simpa using ⟨ht, ht', met_condition shows x, hu, h⟩) rfl (by simp [Demand.Precedes, Demand.closed]) rfl (fun _ => true)
    (fun _ _ => rfl) fun _ _ => rfl
  have hstatement := (hmet.congr (u := .node (.node .ifStmt {} [nameExpr x, body, .absent])) rfl).pass (b := .statement)
    (by decide) rfl
  simpa [Demand.closed, ifWords] using hstatement

/-- An `if` with an alternative. -/
theorem met_ifElse (x a : String) (h : (Demand.closed (.n .statement) ws (.node body)).Met shows) :
    (Demand.closed (.n .statement) (ifWords x ++ (ws ++ elseWords a))
      (.node (.node .ifStmt {} [nameExpr x, body, nameStmt a]))).Met shows := by
  obtain ⟨t, ht⟩ := exists_word shows .kwIf
  obtain ⟨t', ht'⟩ := exists_word shows .lparen
  obtain ⟨u, hu⟩ := exists_word shows .rparen
  obtain ⟨u', hu'⟩ := exists_word shows .kwElse
  have hmet := Demand.Met.rule (r := ⟨.ifStatement, [.t .kwIf, .t .lparen, expr, .t .rparen, .n .statement, .t .kwElse,
      .n .statement], .make .ifStmt 2 [.part 2, .part 4, .part 6]⟩) (by decide) [_, _, _, _, _, _, _]
    (by simpa using ⟨ht, ht', met_condition shows x, hu, h, hu', met_nameStmt shows a⟩) rfl
    (by simp [Demand.Precedes, Demand.closed]) rfl (fun _ => false) nofun (by simp [Demand.closed])
  have hstatement := (hmet.congr (u := .node (.node .ifStmt {} [nameExpr x, body, nameStmt a])) rfl).pass (b := .statement)
    (by decide) rfl
  exact Demand.Met.words_congr hstatement (by simp [Demand.closed, ifWords, elseWords])

/-- `if`s that take the alternatives from the innermost one on. As long as alternatives follow, each `if` has one. -/
theorem nestIfs_met (hle : alts.length ≤ conds.length) (hends : alts ≠ [] → ends = fun _ => false)
    (h : Demand.Met shows ⟨.n .statement, ws, .node body, ends⟩) :
    Demand.Met shows ⟨.n .statement, conds.reverse.flatMap ifWords ++ (ws ++ alts.flatMap elseWords),
      .node (nestIfs body conds alts), fun _ => true⟩ := by
  fun_induction nestIfs body conds alts generalizing ws ends with
  | case1 body alts =>
    obtain rfl := length_eq_zero_iff.1 (Nat.le_zero.1 hle)
    obtain ⟨d, hd⟩ := h
    exact ⟨d, hd.apt, hd.symbol, by simpa using hd.words, hd.value, fun _ _ => rfl⟩
  | case2 body x conds ih =>
    have hmet := ih (Nat.zero_le _) nofun (met_if x h)
    simpa using hmet
  | case3 body x conds a alts ih =>
    obtain rfl := hends nofun
    have hmet := ih (Nat.le_of_succ_le_succ hle) (fun _ => rfl) (met_ifElse x a h)
    simpa using hmet

/-- A word that a part of the text begins with. -/
def Leads (v : Word) : Prop := v ∈ [TokenKind.kwIf.word, TokenKind.kwElse.word] ∨ v.1 = .identifier

theorem starts_of_leads {v : Word} (h : Leads v) : v.Starts :=
  h.elim ((by decide : ∀ v ∈ [TokenKind.kwIf.word, TokenKind.kwElse.word], v.Starts) v) Word.starts_of_name

/-- Such a word behind a parenthesis or a semicolon. -/
theorem parting_leads {t : TokenKind} (ht : t.word.1.isPunctuator) : Parting (· = t.word) "" Leads := by
  refine fun w v hw hv hmark hlead => Parting.letter ht w v hw hv hmark ?_
  rcases hlead with hword | hname
  · exact (by decide : ∀ v ∈ [TokenKind.kwIf.word, TokenKind.kwElse.word], ∀ c ∈ v.2.toList.head?, Lexeme.isNameStart c) v hword
  · exact Word.head_of_name hv hname

/-- A name with a semicolon and alternatives behind it. -/
theorem spaced_elses {x : String} (hx : Word.isSound (.identifier, x)) (halts : ∀ a ∈ alts, Word.isSound (.identifier, a)) :
    Spaced Leads (· = TokenKind.semi.word) "" ((.identifier, x) :: TokenKind.semi.word :: alts.flatMap elseWords)
      (x ++ (";" ++ elsesText alts)) "" := by
  have hleads (x : String) (hx : Word.isSound (.identifier, x)) : Spaced Leads _ _ _ _ _ :=
    (Spaced.name hx).mono (fun _ => .inr) fun _ => id
  have hname (x : String) (hx : Word.isSound (.identifier, x)) := (hleads x hx).mark .semi ";" "" rfl
  induction alts generalizing x with
  | nil => simpa [elsesText] using hname x hx
  | cons a alts ih =>
    obtain ⟨ha, halts⟩ := forall_mem_cons.1 halts
    have hlater := (ih ha halts).mono (fun _ => starts_of_leads) fun _ => id
    have helse : Spaced Leads _ _ _ _ _ := ((Spaced.token .kwElse "" "else " " " rfl).next hlater rfl).mono
      (by rintro _ rfl; exact .inl (by simp)) fun _ => id
    exact ((hname x hx).append helse (parting_leads rfl)).cast (by simp [elseWords]) (by simp [elsesText, String.append_assoc])

/-- `if`s before such a text. -/
theorem spaced_ifs {Q : Word → Prop} (hconds : ∀ x ∈ conds, Word.isSound (.identifier, x))
    (h : Spaced Leads Q "" ws text "") : Spaced Leads Q "" (conds.flatMap ifWords ++ ws) (ifsText text conds) "" := by
  induction conds with
  | nil => exact h
  | cons x conds ih =>
    obtain ⟨hx, hconds⟩ := forall_mem_cons.1 hconds
    have hname := (Spaced.name hx).mono (fun _ => Word.starts_of_name) fun _ => id
    have hif := ((Spaced.token .kwIf "" "if" "" rfl).markAfter (by rintro _ rfl; decide) .lparen "(" "" rfl).enter hname rfl
    have hall : Spaced Leads _ _ _ _ _ := ((hif.mark .rparen ")" "" rfl).append (ih hconds) (parting_leads rfl)).mono
      (by rintro _ rfl; exact .inl (by simp)) fun _ => id
    exact hall.cast (by simp [ifWords]) (by simp [ifsText])

theorem count_words {f : String → List Word} {n : Nat} (hf : ∀ x, ((f x).map Prod.fst).count k = n)
    (xs : List String) : ((xs.flatMap f).map Prod.fst).count k = n * xs.length := by
  induction xs with
  | nil => rfl
  | cons x xs ih =>
    rw [flatMap_cons, map_append, count_append, hf, ih, length_cons, Nat.mul_succ, Nat.add_comm]

/-- The text with some `if`s, a statement and some `else`s. -/
def branchText (conds : List String) (body : String) (alts : List String) : String :=
  ifsText (body ++ (";" ++ elsesText alts)) conds

theorem splits_branchText {body : String} (hnames : ∀ x ∈ conds ++ body :: alts, Lexeme.isWhole .identifier x.toList) :
    SplitsInto (branchText conds body alts)
      (conds.flatMap ifWords ++ ((.identifier, body) :: TokenKind.semi.word :: alts.flatMap elseWords)) := by
  have hsound : ∀ x ∈ conds ++ body :: alts, Word.isSound (.identifier, x) := fun x hx => name_sound (hnames x hx)
  have helses := spaced_elses (hsound body (by simp)) fun a (ha : a ∈ alts) => hsound a (by simp [ha])
  have hifs := spaced_ifs (fun x (hx : x ∈ conds) => hsound x (by simp [hx])) helses
  exact (hifs.mono (fun _ => starts_of_leads) fun _ => id).splitsInto

/-- An `else` belongs to the nearest `if` that has none. A text on one line, made of some `if`s, a statement and some
`else`s, is refused with an unexpected token if there are more `else`s than `if`s. If not, it is parsed, up to lines, into
`if`s one in the other: the innermost ones have the `else`s as their alternatives, one after the other, and those further
out have none. -/
theorem parse_branches {conds alts : List String} {body : String}
    (hnames : ∀ x ∈ conds ++ body :: alts, Lexeme.isWhole .identifier x.toList = true) :
    (conds.length < alts.length →
      ∃ t before after p, parse (branchText conds body alts) = (.error (.unexpected t before after), p)) ∧
    (alts.length ≤ conds.length → ∃ tree p, parse (branchText conds body alts) = (.ok tree, p) ∧ tree.strip (fun _ => true) =
        (Node.node .program {} [nestIfs (nameStmt body) conds.reverse alts]).strip fun _ => true) := by
  have hsplits := splits_branchText hnames
  constructor
  · intro hlt
    rcases hparse : parse (branchText conds body alts) with ⟨e | tree, p⟩
    · obtain ⟨t, before, after, rfl⟩ := parse_error hparse hsplits.2
      exact ⟨t, before, after, p, rfl⟩
    · have hkinds := congrArg (List.map Prod.fst) hsplits.1
      rw [List.map_map, List.map_append] at hkinds
      have hle := else_le_of_parse hparse
      rw [show (tokenize (branchText conds body alts)).1.map (·.kind) = _ from hkinds, List.count_append, List.count_append,
        count_words (n := 0) (fun _ => rfl), count_words (n := 1) (fun _ => rfl)] at hle
      -- The statement between the `if`s and the `else`s has neither word.
      have hmost : alts.length ≤ conds.length := by
        simpa [List.count_cons, TokenKind.word, count_words (f := elseWords) (k := .kwElse) (n := 1) (fun _ => rfl) alts,
          count_words (f := elseWords) (k := .kwIf) (n := 0) (fun _ => rfl) alts] using hle
      exact absurd hlt (Nat.not_lt.2 hmost)
  · intro hle
    have hle' : alts.length ≤ conds.reverse.length := by simpa using hle
    have hmet := nestIfs_met hle' (fun _ => rfl) (met_nameStmt (fun _ => true) body)
    rw [List.reverse_reverse] at hmet
    exact parse_of_statement hmet hsplits

/-- Of three `if`s the two inner ones take two `else`s. Behind a single `if` a second `else` does not fit. -/
theorem parse_branches_of_three :
    (∃ tree p, parse "if(a)if(b)if(c)d;else e;else f;" = (.ok tree, p) ∧ tree.strip (fun _ => true) =
      (Node.node .program {} [.node .ifStmt {} [nameExpr "a", .node .ifStmt {} [nameExpr "b", .node .ifStmt {} [nameExpr "c",
        nameStmt "d", nameStmt "e"], nameStmt "f"], .absent]]).strip fun _ => true) ∧
    ∃ t before after p, parse "if(a)b;else c;else d;" = (.error (.unexpected t before after), p) := by
  have hnames : ["a", "b", "c", "d", "e", "f"].all (fun x => Lexeme.isWhole .identifier x.toList) = true := by decide
  have hname : ∀ x ∈ ["a", "b", "c", "d", "e", "f"], Lexeme.isWhole .identifier x.toList = true := List.all_eq_true.1 hnames
  exact ⟨(@parse_branches ["a", "b", "c"] ["e", "f"] "d" hname).2 (by decide),
    (@parse_branches ["a"] ["c", "d"] "b" fun x hx => hname x (List.mem_of_mem_take (i := 4) hx)).1 (by decide)⟩

end Grammar

end JsMinify
