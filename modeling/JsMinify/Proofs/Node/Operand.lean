import JsMinify.Proofs.Node.Formed
import JsMinify.Proofs.Node.Legible
import JsMinify.Proofs.Node.Printing

/-!
# The pieces of an expression

What an operator can meet at either side: `Operand` says how the pieces of an expression begin and end, and
that a number stands directly before a word at most inside brackets.
-/

namespace JsMinify

open List Spell Node Spelling Option Bool TokenKind

/-- Kinds of tokens that can begin an expression. -/
def TokenKind.opensOperand (k : TokenKind) : Bool :=
  k.isWord || [.number, .string, .regex, .lparen, .lbracket, .lbrace, .plus, .minus, .plusPlus, .minusMinus,
    .bitNot, .bang].contains k

/-- Kinds of names, words and numbers. -/
def TokenKind.isWordy (k : TokenKind) : Bool := k.isWord || [.number, .getProp, .setProp].contains k

namespace Piece

/-- The piece can begin an expression. -/
def opens (p : Piece) : Bool := p.kind.any (·.opensOperand)

/-- The piece can end an expression. -/
def closes (p : Piece) : Bool := p.kind.any (·.endsOperand)

def isWordy (p : Piece) : Bool := p.kind.any (·.isWordy)

def isCloser (p : Piece) : Bool := p.kind == some .rparen || p.kind == some .rbrace || p.kind == some .rbracket

end Piece

/-- A number stands directly before a word only if a bracket is closed later. -/
def Apart : List Piece → Prop
  | p :: q :: ps => (p.kind = some .number → q.isWordy = true → ∃ c ∈ ps, c.isCloser = true) ∧ Apart (q :: ps)
  | _ => True

variable {c : Piece}

namespace Apart

theorem append {ps qs : List Piece} (h : Apart ps) (h' : Apart qs)
    (hjoin : ∀ p ∈ ps.getLast?, ∀ q ∈ qs.head?, p.kind = some .number → q.isWordy = false) :
    Apart (ps ++ qs) := by
  induction ps with
  | nil => exact h'
  | cons p ps ih =>
    cases ps with
    | nil =>
      cases qs with
      | nil => trivial
      | cons q qs =>
        refine ⟨fun hp hq => ?_, h'⟩
        rw [hjoin p rfl q rfl hp] at hq
        cases hq
    | cons q ps =>
      refine ⟨fun hp hq => ?_, ih h.2 hjoin⟩
      obtain ⟨c, hc, hclose⟩ := h.1 hp hq
      exact ⟨c, mem_append_left qs hc, hclose⟩

/-- Whatever stands before a closing bracket. -/
theorem closed (ps : List Piece) (hc : c.isCloser) : Apart (ps ++ [c]) := by
  induction ps with
  | nil => trivial
  | cons p ps ih =>
    cases ps with
    | nil =>
      refine ⟨fun _ hq => ?_, trivial⟩
      obtain ⟨kind, text, owner⟩ := c
      simp only [Piece.isCloser, or_eq_true, beq_iff_eq] at hc
      rcases hc with (rfl | rfl) | rfl <;> cases hq
    | cons q ps => exact ⟨fun _ _ => ⟨c, by simp, hc⟩, ih⟩

theorem under {ps : List Piece} (h : Apart ps) (i : Nat) : Apart (ps.map (Piece.under i)) := by
  induction ps with
  | nil => trivial
  | cons p ps ih =>
    cases ps with
    | nil => trivial
    | cons q ps =>
      refine ⟨fun hp hq => ?_, ih h.2⟩
      obtain ⟨c, hc, hclose⟩ := h.1 hp hq
      exact ⟨c.under i, mem_map_of_mem hc, hclose⟩

end Apart

def Spelling.opens (s : Spelling) : Bool := s.pieces.head?.any (·.opens)

def Spelling.closes (s : Spelling) : Bool := s.pieces.getLast?.any (·.closes)

/-- What an operator can meet of an expression. -/
structure Operand (s : Spelling) : Prop where
  first : s.opens = true
  last : s.closes = true
  apart : Apart s.pieces

/-- What stands between two expressions, or before one. -/
structure Joint (s : Spelling) : Prop where
  first : ∀ p ∈ s.pieces.head?, p.isWordy = false
  last : ∀ p ∈ s.pieces.getLast?, p.kind ≠ some .number
  apart : Apart s.pieces
  nonempty : s.pieces ≠ []

section

variable {s t u : Spelling} {k : TokenKind}

theorem Spelling.opens_append (h : s.opens) : (s ++ t).opens := by
  obtain ⟨p, hp, ho⟩ := (any_eq_true _ _).1 h
  refine (any_eq_true _ _).2 ⟨p, ?_, ho⟩
  change (s.pieces ++ t.pieces).head? = _
  rw [head?_append, hp]
  rfl

theorem Spelling.closes_append (h : t.closes) : (s ++ t).closes := by
  obtain ⟨p, hp, ho⟩ := (any_eq_true _ _).1 h
  refine (any_eq_true _ _).2 ⟨p, ?_, ho⟩
  change (s.pieces ++ t.pieces).getLast? = _
  rw [getLast?_append, hp]
  rfl

namespace Joint

theorem tok (hk : k.isWordy = false) (text : String) : Joint (.tok k text) := by
  refine ⟨?_, ?_, trivial, cons_ne_nil _ _⟩
  · rintro p hp
    cases hp
    exact hk
  · rintro p hp hnumber
    cases hp
    cases hnumber
    cases hk

theorem append_gap (h : Joint s) : Joint (s ++ .gap) := by
  refine ⟨fun p hp => ?_, fun p hp => ?_, h.apart.append trivial ?_, append_ne_nil_of_left_ne_nil h.nonempty _⟩
  · change p ∈ (s.pieces ++ _).head? at hp
    rw [head?_append_of_ne_nil _ h.nonempty] at hp
    exact h.first p hp
  · change p ∈ (s.pieces ++ [_]).getLast? at hp
    rw [getLast?_concat] at hp
    cases hp
    exact nofun
  · rintro p _ q hq _
    cases hq
    rfl

theorem gap_tok (hk : k ≠ .number) (text : String) : Joint (.gap ++ .tok k text) := by
  refine ⟨fun p hp => ?_, fun p hp => ?_, ⟨nofun, trivial⟩, cons_ne_nil _ _⟩
  · cases hp
    rfl
  · obtain rfl : ⟨some k, text, []⟩ = p := some.inj hp
    simpa using hk

end Joint

namespace Operand

theorem under (h : Operand s) (i : Nat) : Operand (s.under i) := by
  refine ⟨?_, ?_, h.apart.under i⟩
  · have hfirst := h.first
    unfold opens Spelling.under at *
    rw [head?_map, Option.any_map]
    exact hfirst
  · have hlast := h.last
    unfold closes Spelling.under at *
    rw [getLast?_map, Option.any_map]
    exact hlast

theorem tok (hfirst : k.opensOperand) (hlast : k.endsOperand) (text : String) : Operand (.tok k text) :=
  ⟨hfirst, hlast, trivial⟩

/-- Two expressions with an operator between them. -/
theorem join (h : Operand s) (h' : Operand u) (ht : Joint t) : Operand (s ++ t ++ u) := by
  refine ⟨opens_append (opens_append h.first), closes_append h'.last, ?_⟩
  refine Apart.append (h.apart.append ht.apart fun p _ q hq _ => ht.first q hq) h'.apart ?_
  intro p hp q _ hnumber
  change p ∈ (s.pieces ++ t.pieces).getLast? at hp
  rw [getLast?_append_of_ne_nil _ ht.nonempty] at hp
  exact absurd hnumber (ht.last p hp)

/-- An operator before an expression. -/
theorem before (h : Operand s) (hfirst : t.opens) (ht : Apart t.pieces)
    (hlast : ∀ p ∈ t.pieces.getLast?, p.kind ≠ some .number) : Operand (t ++ s) := by
  refine ⟨opens_append hfirst, closes_append h.last, ?_⟩
  exact ht.append h.apart fun p hp _ _ hnumber => absurd hnumber (hlast p hp)

/-- An operator after an expression. -/
theorem after (h : Operand s) (ht : Joint t) (hlast : t.closes) : Operand (s ++ t) := by
  refine ⟨opens_append h.first, closes_append hlast, ?_⟩
  exact h.apart.append ht.apart fun _ _ q hq _ => ht.first q hq

/-- A bracket is closed at the end. -/
theorem closed (hs : s.opens) (ht : t.pieces.getLast? = some c) (hc : c.isCloser) : Operand (s ++ t) := by
  obtain ⟨init, hinit⟩ := getLast?_eq_some_iff.1 ht
  refine ⟨opens_append hs, closes_append ?_, ?_⟩
  · refine (any_eq_true _ _).2 ⟨c, ht, ?_⟩
    obtain ⟨kind, text, owner⟩ := c
    simp only [Piece.isCloser, or_eq_true, beq_iff_eq] at hc
    rcases hc with (rfl | rfl) | rfl <;> rfl
  · change Apart (s.pieces ++ t.pieces)
    rw [hinit, ← append_assoc]
    exact .closed _ hc

theorem inParens : Operand s.inParens := closed rfl rfl rfl

theorem braced : Operand s.braced := closed rfl rfl rfl

theorem parensIf (h : Operand s) (m : Mark) : Operand (s.parensIf m) := by
  unfold Spelling.parensIf
  split
  · exact inParens
  · exact h

theorem parens (h : s.opens) : Operand (s ++ t.inParens) :=
  closed (c := ⟨some .rparen, ")", []⟩) h getLast?_concat rfl

theorem braces (h : s.opens) : Operand (s ++ t.braced) :=
  closed (c := ⟨some .rbrace, "\x7d", []⟩) h getLast?_concat rfl

end Operand

end

/-! ## Expressions -/

/-- The operators are neither words in front of which nothing may stand nor numbers. -/
theorem ops_plain : ∀ text ∈ Kind.assignOps ++ Kind.updateOps ++ [":"], (ofText text).isWordy = false := by decide

theorem binaryOps_plain : ∀ text ∈ Kind.binaryOps,
    ofText text ≠ .number ∧ ((text = "instanceof" ∨ text = "in") ∨ (ofText text).isWordy = false) := by decide

theorem updateOps_close : ∀ text ∈ Kind.updateOps, (ofText text).endsOperand := by decide

theorem prefixOps_open : ∀ text ∈ Kind.prefixOps, (ofText text).opensOperand ∧ ofText text ≠ .number := by decide

variable {text : String}

theorem joint_operator (h : text ∈ Kind.binaryOps) (right : Node) : Joint (operator text right) := by
  have hplain := binaryOps_plain text h
  unfold operator
  split
  · exact (Joint.gap_tok hplain.1 text).append_gap
  · next hword =>
    simp only [or_eq_true, decide_eq_true_eq] at hword
    have hop : Joint (op text) := .tok (hplain.2.resolve_left hword) text
    split
    · exact hop.append_gap
    · exact hop

theorem operand_prefixed (h : text ∈ Kind.prefixOps) {s : Spelling} (hs : Operand s) :
    Operand (if isWordOperator text then op text ++ .gap ++ s else op text ++ s) := by
  have hopen := prefixOps_open text h
  split
  · refine hs.before (opens_append hopen.1) ⟨fun _ hq => (by cases hq), trivial⟩ ?_
    rintro p hp hnumber
    obtain rfl : ⟨none, " ", []⟩ = p := some.inj hp
    cases hnumber
  · refine hs.before hopen.1 trivial ?_
    rintro p hp hnumber
    obtain rfl : ⟨some (.ofText text), text, []⟩ = p := some.inj hp
    exact hopen.2 (some.inj hnumber)

/-- What a node has in its place. -/
def Place.Stands (p : Place) (_ : Path) (n : Node) : Prop :=
  match p with
  | .expression | .name => Operand n.spell
  | _ => True

/-- An expression is printed as an operand, if its parts are. -/
theorem operand_node {k : Kind} {m : Mark} {parts : List Node} {path : Path} (hk : k.isExpression)
    (h : PartsHold Place.Stands k parts path) : Operand (Node.node k m parts).spell := by
  rw [spell_node]
  have part {x : Node} (i : Nat) (hx : Operand x.spell) : Operand (x.spell.under i) := hx.under i
  have hw := h.worded
  cases k with
  | identifier | number | string | null | this => exact .tok rfl rfl _
  | regex => exact (Operand.tok rfl rfl _).parensIf m
  | boolean s =>
    simp only [Kind.worded, or_eq_true, beq_iff_eq] at hw
    rcases hw with rfl | rfl <;> exact .tok rfl rfl _
  | array => exact .closed (c := ⟨some .rbracket, "]", []⟩) rfl rfl rfl
  | object => exact .braced
  | newExpr => exact .parens (opens_append (opens_append rfl))
  | call =>
    obtain ⟨a, args, rfl⟩ := Shape.parts_cons h.count
    exact (Operand.parens (part 0 (h.each 0 a rfl)).first).parensIf m
  | bracket =>
    obtain ⟨a, b, rfl, ha, -⟩ := h.two rfl
    unfold Spell.node
    simp only
    split
    · next name _ => exact (part 0 ha).join (.tok rfl rfl name) (.tok rfl ".")
    · exact .closed (c := ⟨some .rbracket, "]", []⟩) (opens_append (opens_append (part 0 ha).first)) rfl rfl
  | dot =>
    obtain ⟨a, b, rfl, ha, hb⟩ := h.two rfl
    exact ((part 0 ha).join (part 1 hb) (.tok rfl ".")).parensIf m
  | assign text =>
    have hcolon : text ≠ ":" := by simpa [Kind.isExpression] using hk
    obtain ⟨a, b, rfl, ha, hb⟩ := h.two (if_neg hcolon)
    have hop : text ∈ Kind.assignOps := by simpa [Kind.worded, hcolon] using hw
    exact ((part 0 ha).join (part 1 hb) (.tok (ops_plain text (by simp [hop])) text)).parensIf m
  | unary text after =>
    obtain ⟨a, rfl, ha⟩ := h.one rfl
    cases after with
    | true =>
      have hop : text ∈ Kind.updateOps := contains_iff_mem.1 hw
      exact ((part 0 ha).after (.tok (ops_plain text (by simp [hop])) text) (updateOps_close text hop)).parensIf m
    | false => exact (operand_prefixed (contains_iff_mem.1 hw) (part 0 ha)).parensIf m
  | binary text =>
    obtain ⟨a, b, rfl, ha, hb⟩ := h.two rfl
    exact ((part 0 ha).join (part 1 hb) (joint_operator (contains_iff_mem.1 hw) b)).parensIf m
  | conditional =>
    obtain ⟨a, b, c, rfl, ha, hb, hc⟩ := h.three rfl
    exact (((part 0 ha).join (part 1 hb) (.tok rfl "?")).join (part 2 hc) (.tok rfl ":")).parensIf m
  | comma =>
    obtain ⟨a, b, rfl, ha, hb⟩ := h.two rfl
    exact ((part 0 ha).join (part 1 hb) (.tok rfl ",")).parensIf m
  | function form =>
    cases form with
    | declared => cases hk
    | expression => exact (Operand.braces (opens_append (opens_append rfl))).parensIf m
  | _ => cases hk

/-- Every expression of a well-formed tree is printed as an operand. -/
theorem Formed.operand {n : Node} (h : Formed (.one .expression) n) : Operand n.spell := by
  refine h.holds (R := Place.Stands) (fun {p k m parts path} _ takes hparts => ?_) n.at?_nil
  cases p with
  | expression => exact operand_node takes hparts
  | name =>
    have hk : k.isExpression := by cases k <;> first | rfl | cases takes
    exact operand_node hk hparts
  | _ => trivial

end JsMinify
