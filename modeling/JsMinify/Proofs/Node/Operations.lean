import JsMinify.Proofs.Parser.Chains
import JsMinify.Proofs.Parser.Enclosed

/-!
# Operator expressions

The compact form of an expression made of names, strings and `this` by operators, points and calls consists of its
words. `Term` is a text of words that begins and ends as an operand does; operators, commas, points and parentheses
make new terms of terms, and `operation_printed` follows the tree.
-/

namespace JsMinify

open List Lexeme Lexer TokenKind

variable {m : Mark} {k : Kind} {n x y : Node} {parts : List Node}

/-! ## Terms -/

namespace Word

/-- The word can stand at the beginning of a term. -/
def opensTerm (w : Word) : Bool := [.identifier, .kwThis, .string, .lparen].contains w.1

/-- The word can stand at the end of a term. -/
def closesTerm (w : Word) : Bool :=
  [.identifier, .kwThis, .string, .rparen].contains w.1 && w.2 != "get" && w.2 != "set"

/-- The word can stand between two terms without blanks. -/
def joinsTerms (w : Word) : Bool :=
  w.isSound && w.1.isPunctuator && w.2.toList.head?.any followers.contains && w.1 != .regex

end Word

/-- A text of words that begins and ends as an operand does. -/
abbrev Term (ws : List Word) (text : String) : Prop := Spaced (·.opensTerm = true) (·.closesTerm = true) "" ws text ""

namespace Word

variable {w v : Word}

/-- The first character of a term. -/
theorem head_of_opensTerm (h : w.isSound) (hopens : w.opensTerm) :
    ∀ c ∈ w.2.toList.head?, isNameStart c ∨ c ∈ ['"', '\'', '('] := by
  intro c hc
  obtain ⟨r, hr⟩ : ∃ r, w.2.toList = c :: r := by
    cases htext : w.2.toList with
    | nil => simp [htext] at hc
    | cons d r =>
      obtain rfl : d = c := by simpa [htext] using hc
      exact ⟨r, rfl⟩
  cases opening_of_isSound h hr with
  | blank kind _ => cases kind
  | string _ head => rcases head with rfl | rfl <;> simp
  | word _ head => exact .inl head
  | number kind _ | regex kind _ =>
    rw [opensTerm, Option.some.inj kind] at hopens
    cases hopens
  | @punctuator q listed kind head _ =>
    have hparen : punctuators.all (fun q => !Word.opensTerm (q.2, q.1) || q.1.toList.head? == some '(') := by
      decide
    have hq := all_eq_true.1 hparen q listed
    have hopens' : Word.opensTerm (q.2, q.1) := by
      rw [← hopens, opensTerm, opensTerm, ← Option.some.inj kind]
    rw [hopens', head] at hq
    simp only [Bool.not_true, Bool.false_or, beq_iff_eq, Option.some.injEq] at hq
    simp [hq]

theorem starts_of_opensTerm (h : w.opensTerm) : w.Starts := by
  simp only [opensTerm, contains_cons, contains_nil, Bool.or_eq_true, beq_iff_eq, Bool.or_false] at h
  rcases h with hk | hk | hk | hk <;> simp [Starts, isReadIf, hk]

theorem operand_of_closesTerm (h : w.closesTerm) : w.Closes ∧ w.1 ≠ .number := by
  simp only [closesTerm, contains_cons, contains_nil, Bool.and_eq_true, Bool.or_eq_true, beq_iff_eq, Bool.or_false] at h
  rcases h.1.1 with hk | hk | hk | hk <;> simp [Closes, hk, endsOperand]

end Word

namespace Parting

variable {w : Word}

theorem beforeTerm (hk : w.1.isPunctuator) : Parting (· = w) "" (·.opensTerm) := by
  rintro _ v hw hv rfl hopens
  exact .beforeOperand hw hk hv (Word.head_of_opensTerm hv hopens)

theorem behindTerm (h : w.joinsTerms) : Parting (·.closesTerm) "" (· = w) := by
  rintro v _ hv hw hcloses rfl
  simp only [Word.joinsTerms, Bool.and_eq_true, bne_iff_ne] at h
  obtain ⟨⟨-, hfollow⟩, hregex⟩ := h
  obtain ⟨hoperand, hnumber⟩ := Word.operand_of_closesTerm hcloses
  refine .behindOperand hv hoperand hw (fun c hc => ?_) (fun h => absurd h hnumber) hregex
  rw [Option.mem_def.1 hc, Option.any_some] at hfollow
  simpa using hfollow

end Parting

namespace Term

variable {ws us : List Word} {s t : String} {w : Word}

/-- A word that is a term by itself. -/
theorem word (h : w.isSound) (hopens : w.opensTerm) (hcloses : w.closesTerm) : Term [w] w.2 :=
  (Spaced.word h (Word.operand_of_closesTerm hcloses).1.isPlain).mono (fun _ h => h ▸ hopens) fun _ h => h ▸ hcloses

theorem weaken (h : Term ws s) : Spaced Word.Starts Word.Closes "" ws s "" :=
  h.mono (fun _ => Word.starts_of_opensTerm) fun _ h => (Word.operand_of_closesTerm h).1

/-- A punctuator between two terms. -/
theorem signed (h : Term ws s) (hw : w.joinsTerms) (h' : Term us t) : Term (ws ++ [w] ++ us) (s ++ w.2 ++ t) := by
  have hsound : w.isSound ∧ w.1.isPunctuator := by
    simp only [Word.joinsTerms, Bool.and_eq_true] at hw
    exact hw.1.1
  have hplain : w.IsPlain := by
    constructor <;>
    · rintro hk
      rw [hk] at hsound
      cases hsound.2
  exact (h.append (.word hsound.1 hplain) (.behindTerm hw)).append h' (.beforeTerm hsound.2)

/-- An operator that is a word, between blanks. -/
theorem worded (h : Term ws s) {k : TokenKind} (hk : k = .kwIn ∨ k = .kwInstanceof) (h' : Term us t) :
    Term (ws ++ [k.word] ++ us) (s ++ (" " ++ k.word.2 ++ " ") ++ t) := by
  have hword : k.isFixed ∧ k.word.Starts ∧ k.word.1 ≠ .regex := by rcases hk with rfl | rfl <;> decide
  obtain ⟨hfixed, hread⟩ := hword
  have hleft := h.append (.token k " " (" " ++ k.word.2 ++ " ") " " (by simp [hfixed]))
    (.around (by decide) (by decide) (fun v hv => ?_) fun _ h => h ▸ hread)
  · refine hleft.append h' ((Parting.behind ?_ (by decide) (by decide) fun h => absurd h (by decide)).mono (fun _ => id) fun _ =>
      Word.starts_of_opensTerm)
    rcases hk with rfl | rfl <;> decide
  · have hoperand := (Word.operand_of_closesTerm hv).1
    simp only [Word.closesTerm, Bool.and_eq_true, bne_iff_ne] at hv
    exact ⟨hv.1.2, hv.2, hoperand.isRestricted_eq⟩

theorem parensIf (h : Term ws s) (m : Mark) :
    Term (JsMinify.parensIf m.parens ws) (if m.parens then "(" ++ s ++ ")" else s) := by
  unfold JsMinify.parensIf
  split
  · exact h.weaken.inParens.mono (fun _ h => h ▸ by decide) fun _ h => h ▸ by decide
  · exact h

/-- A call with some arguments. -/
theorem call {wss : List (List Word)} {ts : List String} (h : Term ws s) (hargs : Forall₂ Term wss ts) :
    Term (ws ++ [lparen.word] ++ joined (some .comma) wss ++ [rparen.word]) (s ++ "(" ++ ",".intercalate ts ++ ")") := by
  have hlist := Itemized.commas (.inl rfl) (hargs.imp fun _ _ h => h.weaken)
  exact (h.listed (fun _ h => (Word.operand_of_closesTerm h).1.isPlain) hlist ")" "" rfl).mono (fun _ => id)
    fun _ h => h ▸ by decide

end Term

/-! ## Trees -/

namespace Kind

/-- Kinds of operands that are one word. -/
def isAtom : Kind → Bool
  | .identifier _ | .string _ | .this => true
  | _ => false

/-- Kinds of nodes that programs of operator expressions are made of. -/
def isOperation : Kind → Bool
  | .program | .exprStmt | .comma | .conditional | .binary _ | .dot | .call | .this | .string _ => true
  | .assign op => op != ":"
  | .identifier name => name != "get" && name != "set"
  | _ => false

/-- Kinds that show the parentheses around them. -/
abbrev shown (k : Kind) : Bool := !k.isAtom

/-- The only statement among operator expressions. -/
theorem eq_exprStmt (h : k.isStatement) (h' : k.isOperation) : k = .exprStmt := by
  cases k with
  | exprStmt => rfl
  | function form => cases h'
  | _ => simp [isStatement, isOperation] at h h'

theorem signs_join_terms : ∀ op ∈ assignOps ++ binaryOps, (op = "in" ∨ op = "instanceof") ∨
    Word.joinsTerms (TokenKind.ofText op, op) := by decide

end Kind

namespace Node

/-- The node is one that operator expressions are made of. -/
def isOperation : Node → Bool
  | .node k _ _ => k.isOperation
  | _ => false

end Node

theorem Printed.text_parensIf (m : Mark) (p : Printed) :
    (p.parensIf m).text = if m.parens then "(" ++ p.text ++ ")" else p.text := by
  unfold parensIf
  split <;> rfl

open Node

/-- An operator expression is printed as its words. -/
def PrintedTerm (n : Node) : Prop :=
  ∃ p, n.fold Compact.algebra = .ok p ∧ Term (n.words Kind.shown) p.text

/-- Nodes that are printed one by one are so all together. -/
theorem exists_mapM {R : List Word → String → Prop} {ns : List Node}
    (h : ∀ n ∈ ns, ∃ p, n.fold Compact.algebra = .ok p ∧ R (n.words Kind.shown) p.text) :
    ∃ ps, Compact.every (ns.map (asPart Compact.algebra)) = .ok ps ∧
      Forall₂ R (ns.map (words Kind.shown)) (ps.map Printed.text) := by
  induction ns with
  | nil => exact ⟨[], rfl, .nil⟩
  | cons n ns ih =>
    obtain ⟨⟨p, hp, hn⟩, hns⟩ := forall_mem_cons.1 h
    obtain ⟨ps, hps, hall⟩ := ih hns
    refine ⟨p :: ps, ?_, .cons hn hall⟩
    unfold Compact.every at hps ⊢
    rw [map_cons, mapM_cons, hps]
    show (do return (← n.fold Compact.algebra) :: (← Except.ok ps)) = _
    rw [hp]
    rfl

theorem PrintedTerm.of_node (hk : k.isAtom = false) {p : Printed}
    (hprint : Compact.node k m (parts.map (asPart Compact.algebra)) = .ok (p.parensIf m)) {ws : List Word}
    (hwords : k.form.flatMap (segmentWords Kind.shown k parts) = ws) (h : Term ws p.text) :
    PrintedTerm (.node k m parts) := by
  refine ⟨p.parensIf m, by rw [fold_node]; exact hprint, ?_⟩
  rw [words_node, hwords, Kind.shown, hk, Printed.text_parensIf, Bool.not_false, Bool.and_true]
  exact h.parensIf m

theorem PrintedTerm.atom (hk : k.isAtom) {w : Word} (hprint : Compact.node k m [] = .ok (w.2 : Printed))
    (hwords : k.form.flatMap (segmentWords Kind.shown k []) = [w]) (h : w.isSound)
    (hopens : w.opensTerm) (hcloses : w.closesTerm) : PrintedTerm (.node k m []) := by
  refine ⟨w.2, by rw [fold_node]; exact hprint, ?_⟩
  rw [words_node, hwords, Kind.shown, hk, Bool.not_true, Bool.and_false]
  exact .word h hopens hcloses

/-- A punctuator between two operator expressions. -/
theorem PrintedTerm.signed {w : Word} (hk : k.isAtom = false) (hw : w.joinsTerms)
    (hwords : k.form.flatMap (segmentWords Kind.shown k [x, y]) = x.words Kind.shown ++ [w] ++ y.words Kind.shown)
    (hprint : ∀ p q, x.fold Compact.algebra = .ok p → y.fold Compact.algebra = .ok q →
      Compact.node k m ([x, y].map (asPart Compact.algebra)) = .ok ((p ++ w.2 ++ q : Printed).parensIf m))
    (h : PrintedTerm x) (h' : PrintedTerm y) : PrintedTerm (.node k m [x, y]) := by
  obtain ⟨p, hp, hx⟩ := h
  obtain ⟨q, hq, hy⟩ := h'
  exact .of_node hk (hprint p q hp hq) hwords (hx.signed hw hy)

attribute [local simp] Kind.form Compact.node Algebra.part asPart

theorem PrintedTerm.binary {op : String} (hop : op ∈ Kind.binaryOps) (hoperation : y.every isOperation)
    (h : PrintedTerm x) (h' : PrintedTerm y) : PrintedTerm (.node (.binary op) m [x, y]) := by
  have hplain : y.isIncrement = false := by
    cases y with
    | node k _ _ =>
      cases k with
      | unary =>
        rw [every_node] at hoperation
        cases hoperation
      | _ => rfl
    | _ => rfl
  have hwords : (Kind.binary op).form.flatMap (segmentWords Kind.shown (.binary op) [x, y]) =
      x.words Kind.shown ++ [(.ofText op, op)] ++ y.words Kind.shown := by
    simp [Kind.sign]
  have hsign := Kind.signs_join_terms op (mem_append_right _ hop)
  by_cases hword : op = "in" ∨ op = "instanceof"
  · obtain ⟨p, hp, hx⟩ := h
    obtain ⟨q, hq, hy⟩ := h'
    refine .of_node (p := p ++ (" " ++ op ++ " " : String) ++ q) rfl ?_ hwords ?_
    · rcases hword with rfl | rfl <;>
      · simp [hp, hq, Compact.operator]
        rfl
    · rcases hword with rfl | rfl
      · exact hx.worded (.inl rfl) hy
      · exact hx.worded (.inr rfl) hy
  · have hnames : op ≠ "in" ∧ op ≠ "instanceof" := not_or.1 hword
    refine .signed rfl (hsign.resolve_left hword) hwords (fun p q hp hq => ?_) h h'
    simp [hp, hq, Compact.operator, hnames, hplain]
    rfl

theorem PrintedTerm.call {args : List Node} (h : PrintedTerm x) (h' : ∀ y ∈ args, PrintedTerm y) :
    PrintedTerm (.node .call m (x :: args)) := by
  obtain ⟨p, hp, hx⟩ := h
  obtain ⟨ps, hps, hterms⟩ := exists_mapM h'
  refine .of_node (p := p ++ (Printed.join "," ps).inParens) rfl ?_ ?_
    (by simpa [Printed.inParens, Printed.join, String.append_assoc] using hx.call hterms)
  · have hnode : Compact.node .call m ((x :: args).map (asPart Compact.algebra)) = (do
        let callee ← x.fold Compact.algebra
        let list ← (do return .join "," (← Compact.every (args.map (asPart Compact.algebra))) : Compact.Out)
        return .parensIf m (callee ++ list.inParens)) := rfl
    rw [hnode, hp, hps]
    rfl
  · simp

/-- The parts of an operator expression are operator expressions. -/
theorem Formed.operands (h : Formed (.one .expression) (.node k m parts)) (hk : k.isOperation) :
    ∀ x ∈ parts, Formed (.one .expression) x := by
  intro x hx
  obtain ⟨i, hi⟩ := mem_iff_getElem?.1 hx
  cases h with
  | node place takes _ count parted =>
    cases place
    refine (parted i x hi).mono (Shape.role_le count (List.getElem?_eq_some_iff.1 hi).1 ?_)
    cases k with
    | program | exprStmt => cases takes
    | assign op => rw [show (Kind.assign op).shape = _ from if_neg (bne_iff_ne.1 hk)]; rfl
    | _ => first | rfl | cases hk

theorem printedTerm (h : Formed (.one .expression) n) (hn : n.every isOperation) : PrintedTerm n := by
  induction n using Node.induct with
  | absent => cases h with | absent omissible => cases omissible
  | seq => cases h with | seq list => cases list
  | node k m parts ih =>
    rw [every_node, Bool.and_eq_true, all_eq_true] at hn
    obtain ⟨hop, hparts⟩ := hn
    have hterm : ∀ x ∈ parts, PrintedTerm x := fun x hx => ih x hx (h.operands hop x hx) (hparts x hx)
    obtain ⟨_, _, _, ⟨⟩, hexpr, hworded, hcount, -⟩ := h.exists_node
    cases k with
    | program | exprStmt => cases hexpr
    | identifier name =>
      obtain rfl := Shape.parts_none hcount
      refine .atom (w := (.identifier, name)) rfl rfl rfl ?_ rfl ?_
      · exact Word.isSound_of_isWhole (by simp) hworded
      · have hplain : name != "get" && name != "set" := hop
        simpa [Word.closesTerm] using hplain
    | string text =>
      obtain rfl := Shape.parts_none hcount
      have hsound : Word.isSound (.string, text) := Word.isSound_of_isWhole (by simp) hworded
      refine .atom (w := (.string, text)) rfl rfl rfl hsound rfl ?_
      have hquote := Word.head_of_string hsound
      rw [Word.closesTerm, Bool.and_eq_true, Bool.and_eq_true, bne_iff_ne, bne_iff_ne]
      refine ⟨⟨rfl, ?_⟩, ?_⟩ <;>
      · rintro rfl
        exact absurd hquote (by decide)
    | this =>
      obtain rfl := Shape.parts_none hcount
      exact .atom (w := kwThis.word) rfl rfl rfl (by decide) (by decide) (by decide)
    | comma =>
      obtain ⟨x, y, rfl⟩ := Shape.parts_two hcount
      refine .signed (w := comma.word) rfl (by decide) (by simp) (fun p q hp hq => ?_) (hterm x (by simp))
        (hterm y (by simp))
      simp [hp, hq]
      rfl
    | dot =>
      obtain ⟨x, y, rfl⟩ := Shape.parts_two hcount
      refine .signed (w := period.word) rfl (by decide) (by simp) (fun p q hp hq => ?_) (hterm x (by simp))
        (hterm y (by simp))
      simp [hp, hq]
      rfl
    | binary op =>
      obtain ⟨x, y, rfl⟩ := Shape.parts_two hcount
      exact .binary (by simpa [Kind.worded] using hworded) (hparts y (by simp)) (hterm x (by simp)) (hterm y (by simp))
    | assign op =>
      have hcolon : op ≠ ":" := bne_iff_ne.1 hop
      have hshape : (Kind.assign op).shape = ⟨[.one .expression, .one .expression], none⟩ := if_neg hcolon
      obtain ⟨x, y, rfl⟩ : ∃ x y, parts = [x, y] := Shape.parts_two (by rw [← hshape]; exact hcount)
      have hsign : Word.joinsTerms (TokenKind.ofText op, op) := by
        have hmem : op ∈ Kind.assignOps := by simpa [Kind.worded, hcolon] using hworded
        refine (Kind.signs_join_terms op (mem_append_left _ hmem)).resolve_left ?_
        rintro (rfl | rfl) <;> exact absurd hmem (by decide)
      refine .signed rfl hsign (by simp [Kind.sign]) (fun p q hp hq => ?_) (hterm x (by simp)) (hterm y (by simp))
      simp [hp, hq]
      rfl
    | conditional =>
      obtain ⟨x, y, z, rfl⟩ := Shape.parts_three hcount
      obtain ⟨p, hp, hx⟩ := hterm x (by simp)
      obtain ⟨q, hq, hy⟩ := hterm y (by simp)
      obtain ⟨r, hr, hz⟩ := hterm z (by simp)
      refine .of_node (p := p ++ "?" ++ q ++ ":" ++ r) rfl ?_ ?_
        ((hx.signed (w := question.word) (by decide) hy).signed (w := colon.word) (by decide) hz)
      · simp [hp, hq, hr]
        rfl
      · simp
    | call =>
      obtain ⟨x, args, rfl⟩ := Shape.parts_cons hcount
      exact .call (hterm x (by simp)) fun y hy => hterm y (mem_cons_of_mem _ hy)
    | _ => cases hop

/-! ## Programs -/

/-- A text of statements. -/
abbrev Sentence (ws : List Word) (text : String) : Prop := Spaced (·.opensTerm = true) (· = semi.word) "" ws text ""

/-- An operator expression may stand at the beginning of a statement. -/
theorem leads_operation (h : Formed (.one .expression) n) (hn : n.every isOperation) : n.leads Kind.shown := by
  induction n using Node.induct with
  | absent => rfl
  | seq => rfl
  | node k m parts ih =>
    obtain ⟨p, -, hterm⟩ := printedTerm h hn
    rw [every_node, Bool.and_eq_true, all_eq_true] at hn
    have hparts : ∀ x ∈ parts, x.leads Kind.shown := fun x hx =>
      ih x hx (h.operands hn.1 x hx) (hn.2 x hx)
    have hbegins : beginsStatement ((Node.node k m parts).words Kind.shown) = false := by
      obtain ⟨w, ws, hws⟩ := exists_cons_of_ne_nil hterm.nonempty
      have hopens := hterm.opens w (by rw [hws]; rfl)
      rw [hws]
      unfold beginsStatement
      split
      · next he =>
        obtain rfl := (cons.inj he).1
        cases hopens
      · next he =>
        obtain rfl := (cons.inj he).1
        cases hopens
      · rfl
    rw [leads_node, hbegins, Bool.not_false, Bool.true_and, Bool.or_eq_true, all_eq_true]
    refine .inr fun x hx => ?_
    rw [hparts x.1 (mem_of_getElem? (mk_mem_zipIdx_iff_getElem?.1 hx)), Bool.or_true]

theorem isRestorable_operation {r : Role} (h : Formed r n) (hn : n.every isOperation) :
    n.every (isRestorable Kind.shown) := by
  have hbare : ∀ x : Node, x.isBare Kind.shown = false := by
    intro x
    cases x with
    | node k m _ => cases k <;> simp [isBare, Kind.isAtom]
    | _ => rfl
  refine every_iff.2 fun path x hx => (every_iff.1 hn path x hx).imp_right fun hop => ?_
  obtain ⟨r, hformed⟩ := h.at? hx
  cases hformed with
  | absent => cases hop
  | seq => cases hop
  | @node _ p k m parts place takes worded count parted =>
    have hparts : parts.zipIdx.all fun x => !x.1.isBare Kind.shown || k.commaParts.contains x.2 := by
      simp [hbare]
    have hnew : k ≠ .newExpr := by
      rintro rfl
      cases hop
    rw [isRestorable, hparts, Bool.true_and]
    by_cases hk : k = .exprStmt
    · subst hk
      obtain ⟨x, rfl⟩ := Shape.parts_one count
      simpa using leads_operation (parted 0 x rfl) (every_at? hn (at?_inner (i := 0) hx rfl))
    · simp [hk, hnew]

/-- An expression that is a statement. -/
theorem printed_statement (h : Formed (.one .statement) n) (hn : n.every isOperation) (henclosed : n.every isEnclosable) :
    ∃ p, n.fold Compact.algebra = .ok p ∧ Sentence (n.words Kind.shown) p.text := by
  obtain ⟨k, m, parts, rfl, takes, -, count, parted⟩ := h.exists_node
  rw [every_node, Bool.and_eq_true, all_eq_true] at hn henclosed
  obtain rfl := Kind.eq_exprStmt takes hn.1
  obtain ⟨x, rfl⟩ := Shape.parts_one count
  obtain ⟨p, hp, hterm⟩ := printedTerm (parted 0 x rfl) (hn.2 x (by simp))
  have hparens : m.parens = false := by simpa [isEnclosable, Kind.isExpression] using henclosed.1
  refine ⟨p ++ ";", ?_, ?_⟩
  · rw [fold_node]
    show (do return (← x.fold Compact.algebra) ++ ";") = _
    rw [hp]
    rfl
  · rw [words_node, hparens]
    simpa [JsMinify.parensIf] using
      hterm.append (.token .semi "" ";" "" rfl) (.behindTerm (w := semi.word) (by decide))

/-- A program of operator expressions is read back from its compact form, up to the lines and the parentheses
around single words. -/
theorem operations_restored {text : String} {tree : Node} {p : Parser} (h : parse text = (.ok tree, p))
    (hoperations : tree.every isOperation = true) :
    ∃ out, tree.compact = .ok out ∧ ∃ tree' p', parse out = (.ok tree', p') ∧
      tree'.strip (fun k => !k.isAtom) = tree.strip fun k => !k.isAtom := by
  have hformed := parse_formed h
  have henclosed := parse_enclosed h
  have hrestorable := isRestorable_operation hformed hoperations
  obtain ⟨k, m, parts, rfl, takes, -, -, parted⟩ := hformed.exists_node
  obtain rfl : k = .program := by cases k <;> first | rfl | cases takes
  have hparts : ∀ x ∈ parts, Formed (.one .statement) x := Formed.of_rest rfl parted
  rw [every_node, Bool.and_eq_true, List.all_eq_true] at hoperations henclosed
  obtain ⟨ps, hps, hstatements⟩ := exists_mapM (R := Sentence) fun x hx =>
    printed_statement (hparts x hx) (hoperations.2 x hx) (henclosed.2 x hx)
  have hparens : m.parens = false := by simpa [isEnclosable, Kind.isExpression] using henclosed.1
  have hwords : (Node.node .program m parts).words Kind.shown = joined none (parts.map (words Kind.shown)) := by
    rw [words_node, hparens]
    simp [JsMinify.parensIf]
  refine ⟨(Printed.join "" ps).text, ?_, ?_⟩
  · rw [Node.compact, fold_node]
    show (do
      let r ← (do return Printed.join "" (← Compact.present (parts.map (asPart Compact.algebra))) : Compact.Out)
      return r.text) = _
    rw [Compact.present, filter_asPart _ fun x hx => (hparts x hx).isAbsent_eq_false, ← Compact.every, hps]
    rfl
  · refine parse_of_words (fun k hk => ?_) h hrestorable ?_
    · cases k <;> first | rfl | cases hk
    · rw [hwords]
      by_cases hne : parts = []
      · subst hne
        obtain rfl := map_eq_nil_iff.1 (forall₂_nil_left_iff.1 hstatements)
        exact Spells.nil.splitsInto (by simp)
      · have hlaid : Sentence (joined none (parts.map (words Kind.shown))) ("".intercalate (ps.map Printed.text)) := by
          refine Spaced.intercalate (fun {ws us s t} h h' => ?_) hstatements (by simpa using hne)
          exact (h.append h' (.beforeTerm (by decide))).cast (by simp) (by simp)
        exact (hlaid.mono (fun _ => Word.starts_of_opensTerm) fun _ => id).splitsInto

/-- Parentheses around operators and commas are kept, those around `this` are not. -/
theorem operations_restored_in_groups :
    ∃ tree p tree' p', parse "a.b(c, 'x') * (d, e) + (this)\nf = g ? h : i in j" = (.ok tree, p) ∧
      tree.every isOperation = true ∧ tree.compact = .ok "a.b(c,'x')*(d,e)+this;f=g?h:i in j;" ∧
      parse "a.b(c,'x')*(d,e)+this;f=g?h:i in j;" = (.ok tree', p') ∧
      tree'.strip (fun k => !k.isAtom) = tree.strip fun k => !k.isAtom := by
  obtain ⟨tree, p, hparse, htest⟩ := exists_of_test "a.b(c, 'x') * (d, e) + (this)\nf = g ? h : i in j"
    (fun tree => tree.every isOperation && tree.compact.toOption == some "a.b(c,'x')*(d,e)+this;f=g?h:i in j;")
    (by decide +kernel)
  simp only [Bool.and_eq_true, beq_iff_eq] at htest
  obtain ⟨out, hout, tree', p', hagain, hstrip⟩ := operations_restored hparse htest.1
  have hcompact := ok_of_toOption htest.2
  cases hout.symm.trans hcompact
  exact ⟨tree, p, tree', p', hparse, htest.1, hcompact, hagain, hstrip⟩

end JsMinify
