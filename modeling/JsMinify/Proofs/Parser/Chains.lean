import JsMinify.Proofs.Node.Spacing
import JsMinify.Proofs.Parser.Openings

/-!
# Chains of binary operators

A chain of names with binary operators between them is parsed into the tree of precedence climbing (`climb`): of ten levels
of operators the tightest ones are applied first, and those of one level from the left. The grammar has a nonterminal for
each level, and `climb` derives at each call an expression of the level that it is called for (`climb_met`).
-/

namespace JsMinify

open List

namespace Grammar

/-! ## Precedence climbing -/

/-- The binary operators by their levels, from the loosest to the tightest. -/
def binaryLevels : List (List String) :=
  [["||"], ["&&"], ["|"], ["^"], ["&"], ["==", "!=", "===", "!=="], ["<", ">", "<=", ">=", "instanceof", "in"],
    ["<<", ">>", ">>>"], ["+", "-"], ["*", "/", "%"]]

/-- How tight a binary operator is. -/
def precedence (op : String) : Nat := binaryLevels.findIdx (·.contains op)

/-- An operator and the name behind it. -/
abbrev Link := String × String

def nameExpr (x : String) : Node := .node (.identifier x) { candidate := true, inExpr := true } []

/-- The tree of an expression and the operators behind it that are at least so tight, and what is left behind them. The
right side of an operator takes those that are tighter. -/
def climb (least : Nat) (left : Node) : (links : List Link) → Node × { rest : List Link // rest.length ≤ links.length }
  | [] => (left, ⟨[], Nat.le_refl _⟩)
  | (op, x) :: links =>
    if precedence op < least then (left, ⟨(op, x) :: links, Nat.le_refl _⟩)
    else
      let right := climb (precedence op + 1) (nameExpr x) links
      let tree := climb least (.node (.binary op) {} [left, right.1]) right.2.1
      (tree.1, ⟨tree.2.1, Nat.le_trans tree.2.2 (Nat.le_succ_of_le right.2.2)⟩)
termination_by links => links.length
decreasing_by
  · exact Nat.lt_succ_self _
  · exact Nat.lt_succ_of_le right.2.2

/-! ## The levels of the grammar -/

/-- The levels of the grammar for binary operators, and that of their operands. -/
def levelOf (n : Nat) : Level :=
  [.logicalOr, .logicalAnd, .bitOr, .bitXor, .bitAnd, .equality, .relational, .shift, .additive, .multiplicative].getD n .unary

theorem levelOf_covers : ∀ n < 11, ∀ m ≤ n, (levelOf m).covers 11 (levelOf n) := by decide

def operatorRule (op : String) (v : Variant) : Rule :=
  ⟨.expr (levelOf (precedence op)) v, [.n (.expr (levelOf (precedence op)) v), .t (.ofText op),
      .n (.expr (levelOf (precedence op + 1)) (if precedence op ≤ 4 then v else .plain))],
    .operator .binary 1 [.part 0, .part 2]⟩

theorem operators_listed : ∀ op ∈ binaryLevels.flatten, precedence op < 10 ∧ ∀ v ∈ [Variant.plain, .noBrace],
    operatorRule op v ∈ rules ∧ (operatorRule op v).isPicky = false := by decide +kernel

theorem precedence_lt {op : String} (h : op ∈ binaryLevels.flatten) : precedence op < 10 :=
  (operators_listed op h).1

def operatorWord (op : String) : Word := (.ofText op, op)

theorem operators_read : ∀ op ∈ binaryLevels.flatten, (operatorWord op).isSound ∧ (operatorWord op).1 ≠ .regex ∧
    op ≠ "get" ∧ op ≠ "set" := by decide +kernel

def linkWords (links : List Link) : List Word := links.flatMap fun link => [operatorWord link.1, (.identifier, link.2)]

variable {shows : Kind → Bool} {v : Variant}

/-- What is derived at a level is derived at the looser ones. -/
theorem Demand.Met.loosen {m n : Nat} (hle : m ≤ n) (hn : n ≤ 10) (hv : v ≠ .noIn) {ws : List Word} {x : Value}
    (h : (closed (.n (.expr (levelOf n) v)) ws x).Met shows) : (closed (.n (.expr (levelOf m) v)) ws x).Met shows := by
  have hcovers := levelOf_covers n (by omega) m (by omega)
  cases v with
  | noIn => exact absurd rfl hv
  | plain => exact Met.climb (v := .plain) hcovers h
  | noBrace => exact Met.climb (v := .noBrace) hcovers h

theorem met_nameExpr (shows : Kind → Bool) (x : String) :
    (Demand.closed (.n (.expr .primary .noBrace)) [(.identifier, x)] (.node (nameExpr x))).Met shows := by
  have htoken : (Demand.closed (.t .identifier) [(.identifier, x)] (.token ⟨.identifier, x, 0, 0⟩)).Met shows :=
    Demand.met_token (t := ⟨.identifier, x, 0, 0⟩) rfl
  have hname := Demand.Met.built (r := ⟨.identifier, [.t .identifier], .slot (.leaf .identifier 0)⟩) (by decide)
    (.cons htoken .nil) rfl rfl (v := .node (.node (.identifier x) {} [])) rfl
  exact Demand.Met.built (r := ⟨.expr .primary .noBrace, [.n .identifier], .nameExpr⟩) (by decide) (.cons hname .nil)
    rfl rfl rfl

/-- A name is an operand of all operators. -/
theorem met_operand (shows : Kind → Bool) (hv : v ≠ .noIn) (x : String) :
    (Demand.closed (.n (.expr (levelOf 10) v)) [(.identifier, x)] (.node (nameExpr x))).Met shows := by
  cases v with
  | noIn => exact absurd rfl hv
  | plain => exact (met_nameExpr shows x).to_plain.climb (v := .plain) (rfl : Level.unary.covers 11 .primary)
  | noBrace => exact (met_nameExpr shows x).climb (v := .noBrace) (rfl : Level.unary.covers 11 .primary)

/-- An operator between a left side of its level and a right side of the next one. -/
theorem met_operator {op : String} (hop : op ∈ binaryLevels.flatten) (hv : v ≠ .noIn) {ws us : List Word} {x y : Node}
    (hx : (Demand.closed (.n (.expr (levelOf (precedence op)) v)) ws (.node x)).Met shows)
    (hy : (Demand.closed (.n (.expr (levelOf (precedence op + 1)) (if precedence op ≤ 4 then v else .plain))) us
      (.node y)).Met shows) :
    (Demand.closed (.n (.expr (levelOf (precedence op)) v)) (ws ++ operatorWord op :: us)
      (.node (.node (.binary op) {} [x, y]))).Met shows := by
  obtain ⟨hrule, hplain⟩ := (operators_listed op hop).2 v (by cases v <;> simp at hv ⊢)
  have htoken : (Demand.closed (.t (.ofText op)) [operatorWord op] (.token ⟨.ofText op, op, 0, 0⟩)).Met shows :=
    Demand.met_token (t := ⟨.ofText op, op, 0, 0⟩) rfl
  have hmet := Demand.Met.built hrule (.cons hx (.cons htoken (.cons hy .nil))) hplain
    (by cases v <;> first | rfl | exact absurd rfl hv) (v := .node (.node (.binary op) {} [x, y])) rfl
  exact hmet.words_congr (by simp)

/-- Precedence climbing derives an expression of the level that it is asked for from the words that it takes, and stops
before a looser operator. What it begins with is at least as tight as the first operator. -/
theorem climb_met {least : Nat} {left : Node} {links : List Link} (hlinks : ∀ link ∈ links, link.1 ∈ binaryLevels.flatten)
    (hv : v ≠ .noIn) {b : Nat} (hb : b ≤ 10) (hle : least ≤ b) (hnext : ∀ link ∈ links.head?, precedence link.1 ≤ b)
    {ws : List Word} (h : (Demand.closed (.n (.expr (levelOf b) v)) ws (.node left)).Met shows) :
    ∃ taken, links = taken ++ (climb least left links).2.1 ∧
      (∀ link ∈ (climb least left links).2.1.head?, precedence link.1 < least) ∧
      (Demand.closed (.n (.expr (levelOf least) v)) (ws ++ linkWords taken) (.node (climb least left links).1)).Met shows := by
  fun_induction climb least left links generalizing v b ws with
  | case1 => exact ⟨[], rfl, nofun, by simpa [linkWords] using h.loosen hle hb hv⟩
  | case2 least left op x links hop =>
    exact ⟨[], rfl, by simpa using hop, by simpa [linkWords] using h.loosen hle hb hv⟩
  | case3 least left op x links hop right tree ihright ihtree =>
    have hop10 := precedence_lt (hlinks (op, x) (by simp))
    have hopb : precedence op ≤ b := hnext (op, x) rfl
    have hside : (if precedence op ≤ 4 then v else .plain) ≠ Variant.noIn := by split <;> first | exact hv | nofun
    have hbelow : ∀ link ∈ links, link.1 ∈ binaryLevels.flatten := fun link h => hlinks link (mem_cons_of_mem _ h)
    -- The right side takes the tighter operators, so what follows it is not tighter than this one.
    obtain ⟨taken, hsplit, hstop, hright⟩ := ihright hbelow hside (Nat.le_refl 10) hop10
      (fun link h => Nat.le_of_lt (precedence_lt (hbelow link (mem_of_mem_head? h)))) (met_operand shows hside x)
    have hrest : ∀ link ∈ right.2.1, link.1 ∈ binaryLevels.flatten := by
      rw [hsplit] at hbelow
      exact fun link h => hbelow link (mem_append_right _ h)
    obtain ⟨taken', hsplit', hstop', htree⟩ := ihtree hrest hv (Nat.le_of_lt hop10) (Nat.le_of_not_lt hop)
      (fun link h => Nat.le_of_lt_succ (hstop link h))
      (met_operator (hlinks (op, x) (by simp)) hv (h.loosen hopb hb hv) hright)
    refine ⟨(op, x) :: (taken ++ taken'), congrArg ((op, x) :: ·) ?_, hstop', htree.words_congr (by simp [linkWords])⟩
    exact (hsplit.trans (congrArg (taken ++ ·) hsplit')).trans (append_assoc _ _ _).symm

/-! ## Texts -/

/-- The text is a name, no reserved word, and neither `get` nor `set`. -/
structure IsOperand (x : String) : Prop where
  name : Lexeme.isWhole .identifier x.toList = true
  notGet : x ≠ "get"
  notSet : x ≠ "set"

/-- The text of operators and names with blanks between them, and a semicolon. -/
def linksText : List Link → String
  | [] => ";"
  | (op, x) :: links => " " ++ (op ++ (" " ++ (x ++ linksText links)))

/-- A name is one word. -/
theorem name_sound {x : String} (h : Lexeme.isWhole .identifier x.toList) : Word.isSound (.identifier, x) :=
  Word.isSound_of_isWhole (by decide) h

/-- A chain is split into its names and operators. -/
theorem spells_chain {first : String} {links : List Link} (hfirst : IsOperand first)
    (hlinks : ∀ link ∈ links, link.1 ∈ binaryLevels.flatten ∧ IsOperand link.2) :
    Spells ((.identifier, first) :: (linkWords links ++ [TokenKind.semi.word])) (first ++ linksText links) := by
  induction links generalizing first with
  | nil => exact ((Spaced.name (name_sound hfirst.name)).mark .semi ";" "" rfl).spelled
  | cons link links ih =>
    obtain ⟨⟨hop, hname⟩, hlater⟩ := forall_mem_cons.1 hlinks
    obtain ⟨hsound, hregex, hget, hset⟩ := operators_read link.1 hop
    have hbefore : Parted (.identifier, first) " " (operatorWord link.1) :=
      .blank (name_sound hfirst.name) (fun h => absurd h (not_or.2 ⟨hfirst.notGet, hfirst.notSet⟩)) (Word.isReadIf_true hregex)
    have hbehind : Parted (operatorWord link.1) " " (.identifier, link.2) :=
      .blank hsound (fun h => absurd h (not_or.2 ⟨hget, hset⟩)) rfl
    have hspells := Spells.cons " " (name_sound hfirst.name) hbefore (.cons " " hsound hbehind (ih hname hlater))
    simpa [linkWords, linksText, operatorWord, String.append_assoc] using hspells

/-- A chain of names with binary operators between them, single blanks around these and a semicolon at its end, is parsed
into one statement, an expression, that is up to lines the tree of precedence climbing over the ten levels of operators,
which all associate to the left. -/
theorem parse_chain {first : String} {links : List Link} (hfirst : IsOperand first)
    (hlinks : ∀ link ∈ links, link.1 ∈ binaryLevels.flatten ∧ IsOperand link.2) :
    ∃ tree p, parse (first ++ linksText links) = (.ok tree, p) ∧ tree.strip (fun _ => true) =
      (Node.node .program {} [.node .exprStmt {} [(climb 0 (nameExpr first) links).1]]).strip fun _ => true := by
  have hops : ∀ link ∈ links, link.1 ∈ binaryLevels.flatten := fun link h => (hlinks link h).1
  obtain ⟨taken, hsplit, hstop, hmet⟩ := climb_met (v := .noBrace) hops nofun (Nat.le_refl 10) (Nat.zero_le 10)
    (fun link h => Nat.le_of_lt (precedence_lt (hops link (List.mem_of_mem_head? h))))
    (met_operand (v := .noBrace) (fun _ => true) nofun first)
  -- No operator is looser than the loosest ones, so all are taken.
  have hall : (climb 0 (nameExpr first) links).2.1 = [] := by
    cases hrest : (climb 0 (nameExpr first) links).2.1 with
    | nil => rfl
    | cons link rest => exact absurd (hstop link (by rw [hrest]; rfl)) (Nat.not_lt_zero _)
  rw [hall, List.append_nil] at hsplit
  subst hsplit
  refine parse_of_expression (hmet.climb (v := .noBrace) (rfl : Level.comma.covers 20 .logicalOr = true)) ?_
  exact (spells_chain hfirst hlinks).splitsInto (by simp [Word.isReadIf])

/-- Subtraction associates to the left, and multiplication binds tighter. -/
theorem parse_chain_of_minus : ∃ tree p, parse "a - b * c - d;" = (.ok tree, p) ∧ tree.strip (fun _ => true) =
      (Node.node .program {} [.node .exprStmt {} [.node (.binary "-") {} [.node (.binary "-") {} [nameExpr "a",
        .node (.binary "*") {} [nameExpr "b", nameExpr "c"]], nameExpr "d"]]]).strip fun _ => true := by
  have hname (x : String) (h : x ∈ ["a", "b", "c", "d"]) : IsOperand x := by
    simp only [List.mem_cons, List.not_mem_nil, or_false] at h
    rcases h with rfl | rfl | rfl | rfl <;> exact ⟨by decide, by decide, by decide⟩
  have hparse := @parse_chain "a" [("-", "b"), ("*", "c"), ("-", "d")] (hname "a" (by simp)) (by
    simpa using ⟨⟨by decide, hname "b" (by simp)⟩, ⟨by decide, hname "c" (by simp)⟩, by decide, hname "d" (by simp)⟩)
  have htree : (climb 0 (nameExpr "a") [("-", "b"), ("*", "c"), ("-", "d")]).1 = .node (.binary "-") {} [.node (.binary "-") {}
      [nameExpr "a", .node (.binary "*") {} [nameExpr "b", nameExpr "c"]], nameExpr "d"] := by
    with_unfolding_all rfl
  rwa [htree] at hparse

end Grammar

end JsMinify
