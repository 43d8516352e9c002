import JsMinify.Proofs.Node.Fusing
import JsMinify.Proofs.Parser.Chains

/-!
# What the compact form leaves out

The first semicolon of a `for` header is left out behind some expressions (`for_header_complete_iff`), and the
parentheses around some kinds of nodes are never written (`Kind.keepsParens`). Without the latter a tree can still be
read back if it is restorable (`parens_kept_or_redundant`).
-/

namespace JsMinify

open Node

variable {n : Node} {m : Mark} {p : Printed} {parts : List Node}

/-! ## Headers -/

namespace Node

/-- What is to be written for a part of a `for` header: nothing if it is left out, and a declaration without the
semicolon that it brings along. -/
def IsHeaderPart (text : String) : Node → Prop
  | .absent => text = ""
  | .node .varStatement m parts => (Node.node .varStatement m parts).compact = .ok (text ++ ";")
  | n => n.compact = .ok text

/-- The first part of a `for` header is written with a semicolon behind it. -/
def endsHeaderPart (n : Node) : Bool := n.needsHeaderSemi || n.isVarStatement

/-- A part of a header is written as it is, if it is there. -/
theorem compact_of_optional (h : Compact.optional "" (asPart Compact.algebra n) = .ok p) :
    if n.isAbsent then p.text = "" else n.compact = .ok p.text := by
  rw [Compact.optional, Spell.asPart_node, Spell.asPart_value] at h
  split at h
  · next ha => rw [if_pos ha, ← Except.ok.inj h]
  · next ha =>
    rw [if_neg ha]
    cases hn : n.fold Compact.algebra with
    | error e =>
      rw [hn] at h
      cases h
    | ok q =>
      rw [hn] at h
      rw [compact_of_fold hn, ← Except.ok.inj h]
      exact congrArg Except.ok String.empty_append.symm

variable {out : String}

/-- How a `for` statement is written. -/
theorem compact_forStmt {init test count body : Node} (h : (node .forStmt m [init, test, count, body]).compact = .ok out) :
    ∃ i t c b : Printed, Compact.optional "" (asPart Compact.algebra init) = .ok i ∧
      Compact.optional "" (asPart Compact.algebra test) = .ok t ∧
      Compact.optional "" (asPart Compact.algebra count) = .ok c ∧ body.fold Compact.algebra = .ok b ∧
      out = "for(" ++ i.text ++ (if init.needsHeaderSemi then ";" else "") ++ t.text ++ ";" ++ c.text ++ ")" ++ b.text := by
  rw [compact, fold_node, show Compact.algebra.node = Compact.node from rfl] at h
  simp only [Compact.node, List.map_cons, List.map_nil, Algebra.part, List.getD_cons_zero, List.getD_cons_succ,
    Spell.asPart_node, Spell.asPart_value] at h
  rcases hi : Compact.optional "" (asPart Compact.algebra init) with e | i
  · rw [hi] at h
    cases h
  rcases ht : Compact.optional "" (asPart Compact.algebra test) with e | t
  · rw [hi, ht] at h
    cases h
  rcases hc : Compact.optional "" (asPart Compact.algebra count) with e | c
  · rw [hi, ht, hc] at h
    cases h
  rcases hb : body.fold Compact.algebra with e | b
  · rw [hi, ht, hc, hb] at h
    cases h
  rw [hi, ht, hc, hb] at h
  refine ⟨i, t, c, b, rfl, rfl, rfl, rfl, ?_⟩
  rw [← Except.ok.inj h]
  change "for" ++ ("(" ++ (i.text ++ _ ++ t.text ++ ";" ++ c.text) ++ ")") ++ b.text = _
  simp only [← String.append_assoc]
  rfl

/-- A declaration of variables is written with a semicolon at its end. -/
theorem compact_varStatement (h : (node .varStatement m parts).compact = .ok out) : ∃ s, out = s ++ ";" := by
  rw [compact, fold_node, show Compact.algebra.node = Compact.node from rfl] at h
  simp only [Compact.node] at h
  rcases hd : Compact.present (parts.map (asPart Compact.algebra)) with e | ds
  · rw [hd] at h
    cases h
  · rw [hd] at h
    exact ⟨_, (Except.ok.inj h).symm⟩

theorem isHeaderPart_of_optional (h : Compact.optional "" (asPart Compact.algebra n) = .ok p) (hn : n.isVarStatement = false) :
    n.IsHeaderPart p.text := by
  have hp := compact_of_optional h
  cases n with
  | absent => exact hp
  | seq ns => exact hp
  | node k m parts => cases k <;> first | exact hp | cases hn

end Node

/-- An expression declares no variables. -/
theorem Formed.isVarStatement_eq_false (h : Formed (.optional .expression) n) : n.isVarStatement = false := by
  cases h with
  | absent _ => rfl
  | seq list _ => cases list
  | @node _ p k _ _ place takes _ _ _ =>
    cases place
    cases k <;> first | rfl | cases takes

/-- The header of a `for` statement in a parsed tree is written with both semicolons exactly if its first part is left
out, a declaration, an assignment, a comma, a conditional, a call or an operator with one operand. Behind any other
expression the first semicolon is missing. -/
theorem for_header_complete_iff {text out : String} {tree : Node} {p : Parser} (h : parse text = (.ok tree, p))
    {path : Path} {m : Mark} {parts : List Node} (hat : tree.at? path = some (.node .forStmt m parts))
    (hout : (Node.node .forStmt m parts).compact = .ok out) :
    ∃ init test count body i t c b, parts = [init, test, count, body] ∧ init.IsHeaderPart i ∧ test.IsHeaderPart t ∧
      count.IsHeaderPart c ∧ body.compact = .ok b ∧
      (out = "for(" ++ i ++ ";" ++ t ++ ";" ++ c ++ ")" ++ b ↔ init.endsHeaderPart = true) ∧
      (init.endsHeaderPart = false → out = "for(" ++ i ++ t ++ ";" ++ c ++ ")" ++ b) := by
  obtain ⟨r, hformed⟩ := (parse_formed h).at? hat
  cases hformed with
  | node place takes worded count parted =>
    obtain ⟨init, test, last, body, rfl⟩ := Shape.parts_four count
    have htest := (parted 1 test rfl).isVarStatement_eq_false
    have hlast := (parted 2 last rfl).isVarStatement_eq_false
    obtain ⟨i, t, c, b, hi, ht, hc, hb, rfl⟩ := compact_forStmt hout
    refine ⟨init, test, last, body, ?_⟩
    cases hvar : init.isVarStatement with
    | true =>
      cases init with
      | node k m parts =>
        cases k with
        | varStatement =>
          have hinit := compact_of_optional hi
          obtain ⟨s, hs⟩ := compact_varStatement hinit
          refine ⟨s, t.text, c.text, b.text, rfl, by rw [IsHeaderPart, ← hs]; exact hinit, isHeaderPart_of_optional ht htest,
            isHeaderPart_of_optional hc hlast, compact_of_fold hb, ⟨fun _ => rfl, fun _ => ?_⟩, nofun⟩
          rw [hs]
          simp [needsHeaderSemi, String.append_assoc]
        | _ => cases hvar
      | _ => cases hvar
    | false =>
      refine ⟨i.text, t.text, c.text, b.text, rfl, isHeaderPart_of_optional hi hvar, isHeaderPart_of_optional ht htest,
        isHeaderPart_of_optional hc hlast, compact_of_fold hb, ?_⟩
      rw [endsHeaderPart, hvar, Bool.or_false]
      cases init.needsHeaderSemi with
      | true => simp
      | false =>
        -- One of the two texts is longer by the semicolon.
        refine ⟨⟨fun heq => ?_, nofun⟩, fun _ => by simp⟩
        have hlength := congrArg String.length heq
        simp only [String.length_append] at hlength
        simp at hlength

/-- The parts of a `for` statement. -/
def Node.forParts? : Node → Option (Mark × List Node)
  | .node .forStmt m parts => some (m, parts)
  | _ => none

theorem Node.eq_of_forParts? (h : n.forParts? = some (m, parts)) : n = .node .forStmt m parts := by
  unfold forParts? at h
  split at h
  · cases Option.some.inj h
    rfl
  · cases h

/-- A name as the first part of a header runs into the second. -/
theorem for_header_incomplete :
    ∃ tree p m parts, parse "for(a;b;c)d;" = (.ok tree, p) ∧ tree.at? [0] = some (.node .forStmt m parts) ∧
      (Node.node .forStmt m parts).compact = .ok "for(ab;c)d;" ∧
      ∃ init test count body i t c b, parts = [init, test, count, body] ∧ init.IsHeaderPart i ∧ test.IsHeaderPart t ∧
        count.IsHeaderPart c ∧ body.compact = .ok b ∧ init.endsHeaderPart = false ∧
        "for(ab;c)d;" ≠ "for(" ++ i ++ ";" ++ t ++ ";" ++ c ++ ")" ++ b := by
  obtain ⟨tree, p, hparse, htest⟩ := exists_of_test "for(a;b;c)d;" (fun tree => ((tree.at? [0]).bind forParts?).any
    fun e => (node .forStmt e.1 e.2).compact.toOption == some "for(ab;c)d;" && e.2.head?.any fun n => !n.endsHeaderPart)
    (by decide +kernel)
  obtain ⟨⟨m, parts⟩, hfor, htest⟩ := (Option.any_eq_true _ _).1 htest
  obtain ⟨n, hat, hn⟩ := Option.bind_eq_some_iff.1 hfor
  obtain rfl := eq_of_forParts? hn
  rw [Bool.and_eq_true, beq_iff_eq] at htest
  have hout := ok_of_toOption htest.1
  obtain ⟨init, test, count, body, i, t, c, b, rfl, hi, ht, hc, hb, hiff, -⟩ := for_header_complete_iff hparse hat hout
  have hinit : init.endsHeaderPart = false := by simpa using htest.2
  refine ⟨tree, p, m, _, hparse, hat, hout, init, test, count, body, i, t, c, b, rfl, hi, ht, hc, hb, hinit, fun heq => ?_⟩
  rw [hiff.1 heq] at hinit
  cases hinit

/-! ## Parentheses -/

/-- Kinds of nodes that are written with the parentheses that they stood in. -/
def Kind.keepsParens : Kind → Bool
  | .regex _ | .getter | .setter | .call | .dot | .assign _ | .unary _ _ | .binary _ | .conditional | .comma
  | .function .expression => true
  | _ => false

theorem Printed.text_inParens (p : Printed) : p.inParens.text = "(" ++ p.text ++ ")" := rfl

/-- Parentheses around an expression are written, or they make no difference, as its kind says. -/
theorem compact_inParens {k : Kind} (hk : k.isExpression) (hm : m.parens = false) (parts : List Node) :
    (node k m parts).inParens.compact =
      (if k.keepsParens then fun s => "(" ++ s ++ ")" else id) <$> (node k m parts).compact := by
  rw [inParens, modifyMark, compact, compact, fold_node, fold_node, show Compact.algebra.node = Compact.node from rfl]
  cases k with
  | function form =>
    cases form with
    | declared => cases hk
    | expression => simp [Compact.node, Printed.parensIf, Kind.keepsParens, hm, Printed.text_inParens]
  | getter | setter => cases hk
  | _ => first
    | rfl
    | simp [Compact.node, Printed.parensIf, Kind.keepsParens, hm, Printed.text_inParens]

/-- The parentheses around an expression are written exactly if its kind keeps them. Those that are not written are
redundant: where a text with parentheses is parsed, a text with the words of its tree, but without these parentheses, is
parsed as well, and gives the same tree up to lines and parentheses, unless an expression that is a statement begins as
a statement of another kind without them, or a constructor ends at a call inside it. The compact form is such a text if
it is read as the tokens that were printed and these are the words of the tree. -/
theorem parens_kept_or_redundant {around : String} {tree : Node} {p : Parser} (h : parse around = (.ok tree, p))
    (hrestorable : tree.every (isRestorable Kind.keepsParens) = true) :
    (∀ k m parts, k.isExpression = true → m.parens = false → (node k m parts).inParens.compact =
      (if k.keepsParens then fun s => "(" ++ s ++ ")" else id) <$> (node k m parts).compact) ∧
      (∀ out, SplitsInto out (tree.words Kind.keepsParens) →
        ∃ tree' p', parse out = (.ok tree', p') ∧ tree'.strip Kind.keepsParens = tree.strip Kind.keepsParens) ∧
      (tree.ReadsBack → tree.tokens = tree.words Kind.keepsParens → ∃ out tree' p', tree.compact = .ok out ∧
        parse out = (.ok tree', p') ∧ tree'.strip Kind.keepsParens = tree.strip Kind.keepsParens) := by
  have hparse : ∀ out, SplitsInto out (tree.words Kind.keepsParens) → _ := fun out =>
    parse_of_words (fun k hk => by cases k <;> first | rfl | cases hk) h hrestorable
  refine ⟨fun k m parts hk hm => compact_inParens hk hm parts, hparse, ?_⟩
  rintro ⟨out, hcompact, hout⟩ htokens
  obtain ⟨tree', p', hagain⟩ := hparse out (htokens ▸ hout)
  exact ⟨out, tree', p', hcompact, hagain⟩

/-- The parentheses around an object are not needed behind an operator, those around a sum are kept. -/
theorem parens_redundant_behind_operator :
    ∃ tree p tree' p', parse "a=(\x7b\x7d).b*(c+d);" = (.ok tree, p) ∧ tree.compact = .ok "a=\x7b\x7d.b*(c+d);" ∧
      tree.every (isRestorable Kind.keepsParens) = true ∧ tree.ReadsBack ∧ tree.tokens = tree.words Kind.keepsParens ∧
      parse "a=\x7b\x7d.b*(c+d);" = (.ok tree', p') ∧ tree'.strip Kind.keepsParens = tree.strip Kind.keepsParens := by
  obtain ⟨tree, p, hparse, htest⟩ := exists_of_test "a=(\x7b\x7d).b*(c+d);" (fun tree =>
    tree.compact.toOption == some "a=\x7b\x7d.b*(c+d);" && tree.every (isRestorable Kind.keepsParens) &&
      (tokenize "a=\x7b\x7d.b*(c+d);").1.map (fun t => (t.kind, t.text)) == tree.tokens &&
      tree.tokens == tree.words Kind.keepsParens) (by decide +kernel)
  simp only [Bool.and_eq_true, beq_iff_eq] at htest
  obtain ⟨⟨⟨hcompact, hrestorable⟩, htokens⟩, hwords⟩ := htest
  have hend : (tokenize "a=\x7b\x7d.b*(c+d);").2.1.toOption = some () := by decide +kernel
  have hreads : tree.ReadsBack := ⟨_, ok_of_toOption hcompact, htokens, ok_of_toOption hend⟩
  obtain ⟨-, -, hcompacted⟩ := parens_kept_or_redundant hparse hrestorable
  obtain ⟨out, tree', p', hout, hagain, hstrip⟩ := hcompacted hreads hwords
  cases (ok_of_toOption hcompact).symm.trans hout
  exact ⟨tree, p, tree', p', hparse, hout, hrestorable, hreads, hwords, hagain, hstrip⟩

end JsMinify
