import JsMinify.Proofs.Node.Joining
import JsMinify.Proofs.Parser.Shapes

/-!
# Operators next to their operands

The compact form puts an operator directly next to its operands. `operator_reads_back_iff` says when the two
are still told apart: the text of an operator with its operands is read as the tokens of the operands with the
operator between them exactly if each operand is read back for itself and nothing fuses (`Node.fuses`). A sign
fuses with an operand that begins with the same sign, a division with a regular expression behind it, an
increment or decrement makes a division of the slash of a regular expression, and `get` and `set` are words of
their own before `in` and `instanceof`. Of these only the plus before an increment is kept apart.
-/

namespace JsMinify

open List hiding next?
open Spell Node Lexeme TokenKind Option Along

variable {c : Char} {n : Node} {r : Role} {ts : List (TokenKind × String)}

namespace Node

/-- The tokens that are printed for a node. -/
def tokens (n : Node) : List (TokenKind × String) := Piece.tokens n.spell.pieces

/-- The text of a node is read as the tokens that were printed. -/
def ReadsBack (n : Node) : Prop := ∃ out, n.compact = .ok out ∧ SplitsInto out n.tokens

/-- The node without parentheses around it. -/
def bare : Node → Node := modifyMark fun m => { m with parens := false }

def operands : Node → List Node
  | .node (.unary _ _) _ parts | .node (.binary _) _ parts => parts
  | _ => []

/-- The tokens of the operands of an operator with the operator itself in its place. -/
def operatorTokens? : Node → Option (List (TokenKind × String))
  | .node (.unary op false) _ [a] => some ((TokenKind.ofText op, op) :: a.tokens)
  | .node (.unary op true) _ [a] => some (a.tokens ++ [(TokenKind.ofText op, op)])
  | .node (.binary op) _ [a, b] => some (a.tokens ++ (TokenKind.ofText op, op) :: b.tokens)
  | _ => none

/-- The operator and what it is printed next to are not told apart. -/
def fuses : Node → Bool
  | .node (.unary op false) _ [a] =>
    (op == "+" && a.spell.begins '+') || (op == "-" && a.spell.begins '-') ||
      ((op == "++" || op == "--") && a.spell.begins '/')
  | .node (.binary op) _ [a, b] =>
    (op == "+" && !b.isIncrement && b.spell.begins '+') || (op == "-" && b.spell.begins '-') ||
      (op == "/" && b.spell.begins '/') || ((op == "in" || op == "instanceof") && a.spell.endsAccessor)
  | _ => false

end Node

/-! ## Signs -/

/-- The character behind a sign goes on with it, or opens a comment. -/
def joinsSign (op : String) (c : Char) : Bool :=
  (op == "+" && c == '+') || (op == "-" && c == '-') || (op == "/" && c == '/')

/-- The operators that are no words. -/
def signs : List String :=
  ["*", "/", "%", "+", "-", "<<", ">>", ">>>", "<", ">", "<=", ">=", "==", "!=", "===", "!==", "&", "^", "|", "&&",
    "||", "++", "--", "~", "!"]

theorem signs_listed : ∀ op ∈ signs, (op, TokenKind.ofText op) ∈ punctuators := by decide

theorem signs_join : ∀ op ∈ signs, ∀ c ∈ ' ' :: ['.', '"', '\'', '/', '(', '[', '\x7b', '+', '-', '~', '!'],
    stops (TokenKind.ofText op) op.toList c = !joinsSign op c := by decide +kernel

theorem signs_plain : ∀ op ∈ signs, TokenKind.ofText op ≠ .period := by decide

/-- No character of a punctuator is one of a name or a number. -/
theorem punctuators_outside_names : ∀ q ∈ punctuators, ∀ c ∈ q.1.toList, (isNameStart c || c.isDigit) = false := by
  decide

theorem not_beginsPunctuator (hc : isNameStart c || c.isDigit) (w : List Char) : beginsPunctuator (w ++ [c]) = false := by
  by_contra hbegins
  obtain ⟨q, hq, hp⟩ := any_eq_true.1 (Bool.not_eq_false _ ▸ hbegins)
  have hmem : c ∈ q.1.toList := (List.isPrefixOf_iff_prefix.1 hp).subset (by simp)
  rw [punctuators_outside_names q hq c hmem] at hc
  cases hc

/-- Whether a sign ends before an operand is seen by its next character. -/
theorem stops_sign {op : String} (h : op ∈ signs) (hc : c = ' ' ∨ beginsOperand c) :
    stops (TokenKind.ofText op) op.toList c = !joinsSign op c := by
  have hlist : c ∈ ' ' :: ['.', '"', '\'', '/', '(', '[', '\x7b', '+', '-', '~', '!'] ∨ (isNameStart c || c.isDigit) := by
    rcases hc with rfl | hc
    · exact .inl (by simp)
    · rw [beginsOperand, Bool.or_eq_true, contains_iff_mem] at hc
      rcases hc with hc | hc
      · exact .inr hc
      · exact .inl (mem_cons_of_mem _ hc)
  rcases hlist with hlist | hname
  · exact signs_join op h c hlist
  · have hother : ∀ d ∈ ['+', '-', '/', '*'], (c == d) = false := by
      intro d hd
      rw [beq_eq_false_iff_ne]
      rintro rfl
      have hout : ∀ d ∈ ['+', '-', '/', '*'], (isNameStart d || d.isDigit) = false := by decide
      rw [hout c hd] at hname
      cases hname
    have hperiod := beq_eq_false_iff_ne.2 (signs_plain op h)
    rw [stops_punctuator (signs_listed op h), not_beginsPunctuator hname]
    simp [joinsSign, hperiod, hother '+', hother '-', hother '/', hother '*']

/-- A sign is read before an operand exactly if it does not go on with its first character. -/
theorem rule?_sign {op : String} (h : op ∈ signs) (hc : c = ' ' ∨ beginsOperand c) (r : List Char) :
    rule? (op.toList ++ c :: r) = some (TokenKind.ofText op, op.toList.length) ↔ joinsSign op c = false := by
  have hmem := signs_listed op h
  have hstops := stops_sign h hc
  rw [String.length_toList]
  constructor
  · intro hrule
    have hstop := stops_of_rule? hmem hrule (c := c) rfl fun _ => by
      rintro rfl
      rcases hc with hc | hc
      · cases hc
      · exact absurd hc (by decide)
    rw [hstops] at hstop
    simpa using hstop
  · intro hjoins
    refine rule?_punctuator (p := (op, TokenKind.ofText op)) hmem fun d hd => ?_
    obtain rfl : c = d := some.inj hd
    rw [hstops, hjoins]
    rfl

/-! ## Operators before an operand -/

def wordOps : List String := ["in", "instanceof", "delete", "void", "typeof"]

theorem wordOps_read : ∀ op ∈ wordOps, rule? op.toList = some (TokenKind.ofText op, op.toList.length) ∧
    (TokenKind.ofText op).isTrivia = false ∧ stops (TokenKind.ofText op) op.toList ' ' ∧ op.toList.head? ≠ some '/' ∧
    op ≠ "get" ∧ op ≠ "set" ∧ (TokenKind.ofText op).endsOperand = false := by decide

theorem signs_slash : ∀ op ∈ signs, op = "/" ∨ ∃ c ∈ op.toList.head?, c ≠ '/' := by decide

namespace Spelling

/-- The text begins with what goes on with a sign before it. -/
def joinedBy (s : Spelling) (op : String) : Bool :=
  (op == "+" && s.begins '+') || (op == "-" && s.begins '-') || (op == "/" && s.begins '/')

theorem joinedBy_eq {s : Spelling} {r : List Char} (h : (Piece.textOf s.pieces).toList = c :: r) (op : String) :
    s.joinedBy op = joinsSign op c := by
  have hbegins : ∀ d, s.begins d = (c == d) := by
    intro d
    rw [begins, h, head?_cons]
    rfl
  rw [joinedBy, joinsSign, hbegins, hbegins, hbegins]

theorem textOf_op (op : String) (s : Spelling) :
    (Piece.textOf (Spell.op op ++ s).pieces).toList = op.toList ++ (Piece.textOf s.pieces).toList :=
  String.toList_append

theorem textOf_gap (s : Spelling) :
    (Piece.textOf (gap ++ s).pieces).toList = ' ' :: (Piece.textOf s.pieces).toList := String.toList_append

end Spelling

section

variable {s : Spelling} {op : String} {last : Option TokenKind}

/-- Where a sign stands, a slash divides, or the sign is none. -/
theorem next?_sign (hop : op ∈ signs) (hlast : last.any (·.endsOperand) ∨ op ≠ "/") (x : List Char) :
    next? (last.any (·.endsOperand)) (op.toList ++ x) = rule? (op.toList ++ x) := by
  unfold next?
  rcases hlast with hlast | hne
  · rw [hlast, Bool.not_true, Bool.and_false]
    rfl
  · obtain ⟨c, hc, hslash⟩ := (signs_slash op hop).resolve_left hne
    obtain ⟨r, hr⟩ := head?_eq_some_iff.1 hc
    rw [hr, cons_append, opensSlash_eq_false (by simpa using hslash)]
    rfl

theorem legible_op : Legible last (Spell.op op ++ s).pieces [] ↔
    next? (last.any (·.endsOperand)) (op.toList ++ (Piece.textOf s.pieces).toList) =
      some (TokenKind.ofText op, op.toList.length) ∧ Legible (some (TokenKind.ofText op)) s.pieces [] := by
  have hpieces : (Spell.op op ++ s).pieces = ⟨some (TokenKind.ofText op), op, []⟩ :: s.pieces := rfl
  rw [hpieces, Legible, append_nil]

/-- A sign and an operand directly behind it. -/
theorem legible_sign (hclean : Clean s) (hs : Operand s) (hop : op ∈ signs) (hlast : last.any (·.endsOperand) ∨ op ≠ "/") :
    Legible last (Spell.op op ++ s).pieces [] ↔ Legible none s.pieces [] ∧
        (s.joinedBy op || ((TokenKind.ofText op).endsOperand && s.begins '/')) = false := by
  obtain ⟨p, c, r, -, hc, hopens, hopening⟩ := hs.exists_head hclean
  rw [legible_op, next?_sign hop hlast, hc,
    rule?_sign hop (.inr (hopening.beginsOperand hopens).1) r, ← Spelling.joinedBy_eq hc, hs.legible_after hclean]
  simp only [Bool.or_eq_false_iff, ← Bool.and_eq_true, Bool.not_eq_true]
  exact ⟨fun h => ⟨h.2.1, h.1, h.2.2⟩, fun h => ⟨h.2.1, h.1, h.2.2⟩⟩

/-- A sign and an operand with a blank between them. -/
theorem legible_sign_gap (hclean : Clean s) (hs : Operand s) (hop : op ∈ signs)
    (hends : (TokenKind.ofText op).endsOperand = false)
    (hlast : last.any (·.endsOperand) ∨ op ≠ "/") :
    Legible last (Spell.op op ++ (.gap ++ s)).pieces [] ↔ Legible none s.pieces [] := by
  have hread : rule? (op.toList ++ (Piece.textOf (Spelling.gap ++ s).pieces).toList) =
      some (TokenKind.ofText op, op.toList.length) := by
    rw [Spelling.textOf_gap]
    exact (rule?_sign hop (.inl rfl) _).2 (by simp [joinsSign])
  have hright : Legible (some (TokenKind.ofText op)) s.pieces [] ↔ Legible none s.pieces [] := by
    rw [hs.legible_after hclean, hends]
    simp
  rw [legible_op, next?_sign hop hlast]
  exact ⟨fun h => hright.1 h.2, fun h => ⟨hread, hright.2 h⟩⟩

/-- A word and an operand with a blank between them. -/
theorem legible_word_gap (hclean : Clean s) (hs : Operand s) (hop : op ∈ wordOps) :
    Legible last (Spell.op op ++ (.gap ++ s)).pieces [] ↔ Legible none s.pieces [] := by
  obtain ⟨hrule, hsolid, hstop, hslash, hget, hset, hends⟩ := wordOps_read op hop
  have hread : ∀ x, rule? (op.toList ++ ' ' :: x) = some (TokenKind.ofText op, op.toList.length) := by
    intro x
    have htake := rule?_take hrule hsolid (x := ' ' :: x) (by
      rw [take_length, drop_length]
      refine ⟨fun c hc => ?_, fun _ hpoint => ?_, fun htext => ?_⟩
      · obtain rfl : ' ' = c := some.inj hc
        exact hstop
      · cases hpoint
      · rw [String.toList_inj, String.toList_inj] at htext
        exact absurd htext (not_or.2 ⟨hget, hset⟩))
    rwa [take_length] at htake
  have hhead : ∀ x, (op.toList ++ x).head? ≠ some '/' := by
    intro x
    cases hw : op.toList with
    | nil =>
      rw [hw] at hrule
      cases hrule
    | cons c w =>
      rw [hw] at hslash
      exact hslash
  have hright : Legible (some (TokenKind.ofText op)) s.pieces [] ↔ Legible none s.pieces [] := by
    rw [hs.legible_after hclean, hends]
    simp
  rw [legible_op, next?, opensSlash_eq_false (hhead _), Bool.false_and, if_neg (by decide), Spelling.textOf_gap, hread]
  exact ⟨fun h => hright.1 h.2, fun h => ⟨rfl, hright.2 h⟩⟩

end

/-! ## Nodes -/

theorem Legible.under {last : Option TokenKind} {ps : List Piece} {x : List Char} (i : Nat) :
    Legible last (ps.map (Piece.under i)) x ↔ Legible last ps x := by
  induction ps generalizing last with
  | nil => exact Iff.rfl
  | cons p ps ih =>
    obtain ⟨_ | k, text, owner⟩ := p
    · exact ih
    · rw [map_cons, Piece.under, Legible, Legible, Piece.textOf_under, ih]

namespace Spelling

@[simp] theorem begins_under (s : Spelling) (i : Nat) (c : Char) : (s.under i).begins c = s.begins c := by
  rw [begins, begins, under, Piece.textOf_under]

@[simp] theorem endsAccessor_under (s : Spelling) (i : Nat) : (s.under i).endsAccessor = s.endsAccessor := by
  rw [endsAccessor, endsAccessor, under, getLast?_map, Option.any_map]
  rfl

end Spelling

theorem binaryOps_split : ∀ op ∈ Kind.binaryOps, (op == "in" || op == "instanceof") = false → op ∈ signs ∧
    (TokenKind.ofText op).endsOperand = false ∧ ∃ c ∈ op.toList.head?, c ∈ followers ∧ c ≠ '.' ∧
      Text.blankRanges.contains c = false := by decide

theorem prefixOps_split : ∀ op ∈ Kind.prefixOps, if isWordOperator op then op ∈ wordOps
    else op ∈ signs ∧ op ≠ "/" ∧ (TokenKind.ofText op).endsOperand = (op == "++" || op == "--") := by decide

theorem opensName_eq_false (h : Text.blankRanges.contains c = false) (s : List Char) : opensName (c :: s) = false := by
  unfold opensName
  split
  · next he =>
    obtain rfl := (List.cons.inj he).1
    rw [h, Bool.false_and]
  · rfl

section

variable {s t : Spelling} {op : String}

/-- An operator before its operand. -/
theorem legible_prefix_operator (hop : op ∈ Kind.prefixOps) (hclean : Clean s) (hs : Operand s) :
    Legible none (if isWordOperator op then Spell.op op ++ .gap ++ s else Spell.op op ++ s).pieces [] ↔
      Legible none s.pieces [] ∧ ((op == "+" && s.begins '+') || (op == "-" && s.begins '-') ||
          ((op == "++" || op == "--") && s.begins '/')) = false := by
  have hsplit := prefixOps_split op hop
  split
  · next hword =>
    rw [if_pos hword] at hsplit
    have hother : ∀ sign ∈ ["+", "-", "++", "--"], (op == sign) = false := by
      intro sign hsign
      rw [beq_eq_false_iff_ne]
      rintro rfl
      have hnone : ∀ sign ∈ ["+", "-", "++", "--"], sign ∉ wordOps := by decide
      exact hnone op hsign hsplit
    have hread : Legible none (Spell.op op ++ (.gap ++ s)).pieces [] ↔ Legible none s.pieces [] :=
      legible_word_gap hclean hs hsplit
    simp only [hother "+" (by decide), hother "-" (by decide), hother "++" (by decide), hother "--" (by decide),
      Bool.false_and, Bool.or_false, and_true]
    exact hread
  · next hword =>
    rw [if_neg hword] at hsplit
    obtain ⟨hsign, hslash, hends⟩ := hsplit
    rw [legible_sign hclean hs hsign (.inr hslash), hends, Spelling.joinedBy, beq_eq_false_iff_ne.2 hslash,
      Bool.false_and, Bool.or_false]

/-- An operator behind its operand. -/
theorem legible_postfix_operator (hop : op ∈ Kind.updateOps) (hclean : Clean s) (hs : Operand s) :
    Legible none (s ++ Spell.op op).pieces [] ↔ Legible none s.pieces [] := by
  have hsign : op ∈ signs := (by decide : ∀ op ∈ Kind.updateOps, op ∈ signs) op hop
  have hread : next? true (op.toList ++ []) = some (TokenKind.ofText op, op.toList.length) := by
    have hrule := rule?_punctuator (signs_listed op hsign) (x := []) nofun
    rw [String.length_toList, next?, Bool.not_true, Bool.and_false]
    exact hrule
  obtain ⟨c, r, hc, hfollow, hpoint, hblank⟩ : ∃ c r, op.toList = c :: r ∧ c ∈ followers ∧ c ≠ '.' ∧
      Text.blankRanges.contains c = false := by
    rcases mem_cons.1 hop with rfl | hop
    · exact ⟨'+', ['+'], rfl, by decide⟩
    · obtain rfl := mem_singleton.1 hop
      exact ⟨'-', ['-'], rfl, by decide⟩
  have htext : (Piece.textOf (Spell.op op).pieces).toList ++ [] = c :: r := by
    rw [append_nil, ← hc]
    exact congrArg String.toList (String.append_empty)
  have hpieces : (s ++ Spell.op op).pieces = s.pieces ++ (Spell.op op).pieces := rfl
  rw [hpieces, Legible.append, htext, hs.legible_before hclean (by simpa using hfollow) (by simp [hpoint]),
    opensName_eq_false hblank]
  have hlast := hs.lastKind_ends none
  constructor
  · intro h
    exact h.1.1
  · intro h
    refine ⟨⟨h, by simp⟩, ?_, trivial⟩
    rw [hlast]
    exact hread

/-- An operator between its operands. -/
theorem legible_infix_operator (hop : op ∈ Kind.binaryOps) (right : Node) (hclean : Clean s) (hs : Operand s)
    (hclean' : Clean t) (ht : Operand t) :
    Legible none (s ++ operator op right ++ t).pieces [] ↔ (Legible none s.pieces [] ∧ Legible none t.pieces []) ∧
        ((op == "+" && !right.isIncrement && t.begins '+') || (op == "-" && t.begins '-') ||
          (op == "/" && t.begins '/') || ((op == "in" || op == "instanceof") && s.endsAccessor)) = false := by
  have hlast := hs.lastKind_ends none
  have hpieces : (s ++ operator op right ++ t).pieces = s.pieces ++ (operator op right ++ t).pieces :=
    append_assoc _ _ _
  rw [hpieces, Legible.append, append_nil]
  cases hword : op == "in" || op == "instanceof" with
  | true =>
    have hwords : op = "in" ∨ op = "instanceof" := by simpa using hword
    have hwordOp : op ∈ wordOps := by
      rcases hwords with rfl | rfl <;> decide
    have hother : (op == "+") = false ∧ (op == "-") = false ∧ (op == "/") = false := by
      rcases hwords with rfl | rfl <;> decide
    have hoperator : operator op right ++ t = .gap ++ (Spell.op op ++ (.gap ++ t)) := by
      have hif : decide (op = "instanceof") || decide (op = "in") := by simpa [or_comm] using hwords
      rw [operator, if_pos hif]
      rfl
    have hopens : opensName (' ' :: (Piece.textOf (Spell.op op ++ (.gap ++ t)).pieces).toList) := by
      have hblank : Text.blankRanges.contains ' ' && isNameStart 'i' := by decide
      rw [Spelling.textOf_op]
      rcases hwords with rfl | rfl <;> exact hblank
    have hright : Legible (Piece.lastKind none s.pieces) (Spelling.gap ++ (Spell.op op ++ (.gap ++ t))).pieces [] ↔
        Legible none t.pieces [] := legible_word_gap hclean' ht hwordOp
    rw [hoperator, hright, Spelling.textOf_gap, hs.legible_before hclean (by simp [followers]) (by simp), hopens]
    simp only [hother, Bool.false_and, Bool.false_or, Bool.true_and, and_true, Bool.not_eq_true]
    exact ⟨fun h => ⟨⟨h.1.1, h.2⟩, h.1.2⟩, fun h => ⟨⟨h.1.1, h.2⟩, h.1.2⟩⟩
  | false =>
    obtain ⟨hsign, hends, c, hc, hfollow, hpoint, hblank⟩ := binaryOps_split op hop hword
    obtain ⟨r, hr⟩ := head?_eq_some_iff.1 hc
    have hleft : ∀ u : Spelling, Legible none s.pieces (Piece.textOf (Spell.op op ++ u).pieces).toList ↔
        Legible none s.pieces [] := by
      intro u
      rw [Spelling.textOf_op, hr, cons_append, hs.legible_before hclean (by simpa using hfollow)
        (by simp [hpoint]), opensName_eq_false hblank]
      simp
    have hif : ¬(decide (op = "instanceof") || decide (op = "in")) := by
      simpa [or_comm, not_or] using hword
    rw [operator, if_neg hif]
    split
    · next hplus =>
      simp only [Bool.and_eq_true, decide_eq_true_eq] at hplus
      obtain ⟨rfl, hincrement⟩ := hplus
      have hright : Legible (Piece.lastKind none s.pieces) (Spell.op "+" ++ (.gap ++ t)).pieces [] ↔
          Legible none t.pieces [] := legible_sign_gap hclean' ht hsign hends (.inl hlast)
      have hassoc : Spell.op "+" ++ .gap ++ t = Spell.op "+" ++ (.gap ++ t) := rfl
      rw [hassoc, hright, hleft, hincrement]
      simp
    · next hplus =>
      have hright : Legible (Piece.lastKind none s.pieces) (Spell.op op ++ t).pieces [] ↔
          Legible none t.pieces [] ∧ (t.joinedBy op || ((TokenKind.ofText op).endsOperand && t.begins '/')) = false :=
        legible_sign hclean' ht hsign (.inl hlast)
      have hincrement : (op == "+" && !right.isIncrement && t.begins '+') = (op == "+" && t.begins '+') := by
        cases hop : op == "+" with
        | false => rfl
        | true =>
          have hnot : right.isIncrement = false := by simpa [beq_iff_eq.1 hop] using hplus
          rw [hnot]
          rfl
      rw [hright, hleft, hends, hincrement, Spelling.joinedBy]
      simp only [Bool.false_and, Bool.or_false, and_assoc]

end

/-- The operands of an operator are printed as operands. -/
theorem Formed.operand_part {k : Kind} {m : Mark} {parts : List Node} (h : Formed r (.node k m parts)) {x : Node} (i : Nat)
    (hx : parts[i]? = some x) (hrole : k.shape.role i = .one .expression) :
    Clean (x.spell.under i) ∧ Operand (x.spell.under i) := by
  have hpart := h.part i hx
  rw [hrole] at hpart
  exact ⟨hpart.clean.under i, hpart.operand.under i⟩

theorem Formed.operatorTokens?_cases (h : Formed r n) (hts : n.operatorTokens? = some ts) :
    (∃ op m a, n = .node (.unary op false) m [a] ∧ op ∈ Kind.prefixOps ∧ ts = (TokenKind.ofText op, op) :: a.tokens) ∨
    (∃ op m a, n = .node (.unary op true) m [a] ∧ op ∈ Kind.updateOps ∧ ts = a.tokens ++ [(TokenKind.ofText op, op)]) ∨
    ∃ op m a b, n = .node (.binary op) m [a, b] ∧ op ∈ Kind.binaryOps ∧
      ts = a.tokens ++ (TokenKind.ofText op, op) :: b.tokens := by
  unfold Node.operatorTokens? at hts
  split at hts
  · next op m a =>
    cases h with
    | node _ _ worded _ _ => exact .inl ⟨op, m, a, rfl, contains_iff_mem.1 worded, (some.inj hts).symm⟩
  · next op m a =>
    cases h with
    | node _ _ worded _ _ =>
      exact .inr (.inl ⟨op, m, a, rfl, contains_iff_mem.1 worded, (some.inj hts).symm⟩)
  · next op m a b =>
    cases h with
    | node _ _ worded _ _ =>
      exact .inr (.inr ⟨op, m, a, b, rfl, contains_iff_mem.1 worded, (some.inj hts).symm⟩)
  · cases hts

/-- The pieces of an operator with its operands. -/
theorem Formed.legible_operator (h : Formed r n) (hts : n.operatorTokens? = some ts) :
    Piece.tokens n.bare.spell.pieces = ts ∧ (Legible none n.bare.spell.pieces [] ↔
        (∀ a ∈ n.operands, Legible none a.spell.pieces []) ∧ n.fuses = false) := by
  rcases h.operatorTokens?_cases hts with ⟨op, m, a, rfl, hop, rfl⟩ | ⟨op, m, a, rfl, hop, rfl⟩ | ⟨op, m, a, b, rfl, hop, rfl⟩
  · obtain ⟨hclean, ha⟩ := h.operand_part (x := a) 0 rfl rfl
    have hspell : (Node.node (.unary op false) m [a]).bare.spell =
        if isWordOperator op then Spell.op op ++ .gap ++ a.spell.under 0 else Spell.op op ++ a.spell.under 0 :=
      spell_node _ _ _
    rw [hspell, legible_prefix_operator hop hclean ha]
    refine ⟨?_, ?_⟩
    · split
      · exact congrArg _ (Piece.tokens_under 0 _)
      · exact congrArg _ (Piece.tokens_under 0 _)
    · simp only [operands, forall_mem_singleton, fuses, Spelling.begins_under]
      exact and_congr_left' (Legible.under 0)
  · obtain ⟨hclean, ha⟩ := h.operand_part (x := a) 0 rfl rfl
    have hspell : (Node.node (.unary op true) m [a]).bare.spell = a.spell.under 0 ++ Spell.op op :=
      spell_node _ _ _
    rw [hspell, legible_postfix_operator hop hclean ha]
    refine ⟨?_, ?_⟩
    · exact (Piece.tokens_append _ _).trans (congrArg (· ++ _) (Piece.tokens_under 0 _))
    · simp only [operands, forall_mem_singleton, fuses, and_true]
      exact Legible.under 0
  · obtain ⟨hclean, ha⟩ := h.operand_part (x := a) 0 rfl rfl
    obtain ⟨hclean', hb⟩ := h.operand_part (x := b) 1 rfl rfl
    have hspell : (Node.node (.binary op) m [a, b]).bare.spell =
        a.spell.under 0 ++ operator op b ++ b.spell.under 1 := spell_node _ _ _
    rw [hspell, legible_infix_operator hop b hclean ha hclean' hb]
    refine ⟨?_, ?_⟩
    · have htokens : Piece.tokens (operator op b).pieces = [(TokenKind.ofText op, op)] := by
        unfold operator
        split
        · rfl
        · split <;> rfl
      have hpieces : (a.spell.under 0 ++ operator op b ++ b.spell.under 1).pieces =
          (a.spell.under 0).pieces ++ (operator op b).pieces ++ (b.spell.under 1).pieces := rfl
      rw [hpieces, Piece.tokens_append, Piece.tokens_append, htokens, append_assoc]
      exact congrArg₂ (· ++ _ :: ·) (Piece.tokens_under 0 _) (Piece.tokens_under 1 _)
    · simp only [operands, forall_mem_cons, not_mem_nil, false_imp_iff, implies_true, and_true, fuses,
        Spelling.begins_under, Spelling.endsAccessor_under]
      exact and_congr_left' (and_congr (Legible.under 0) (Legible.under 1))

theorem Formed.clean_operand {a : Node} (h : Formed r n) (ha : a ∈ n.operands) : Clean a.spell := by
  unfold operands at ha
  split at ha
  · cases h with
    | node _ _ _ count parted =>
      obtain ⟨x, rfl⟩ := Shape.parts_one count
      obtain rfl := mem_singleton.1 ha
      exact Formed.clean (parted 0 a rfl)
  · cases h with
    | node _ _ _ count parted =>
      obtain ⟨x, y, rfl⟩ := Shape.parts_two count
      rcases mem_cons.1 ha with rfl | ha
      · exact Formed.clean (parted 0 a rfl)
      · obtain rfl := mem_singleton.1 ha
        exact Formed.clean (parted 1 a rfl)
  · cases ha

theorem Formed.clean_bare (h : Formed r n) (hts : n.operatorTokens? = some ts) : Clean n.bare.spell := by
  have hbare := h.modifyMark fun m => { m with parens := false }
  unfold operatorTokens? at hts
  split at hts
  · exact hbare.clean_expression rfl
  · exact hbare.clean_expression rfl
  · exact hbare.clean_expression rfl
  · cases hts

/-- Where an operator is printed, so are its operands. -/
theorem compact_operand {inner : String} (hts : n.operatorTokens? = some ts) (h : n.bare.compact = .ok inner) :
    ∀ a ∈ n.operands, ∃ out, a.compact = .ok out := by
  have hpart : ∀ {a : Node} {k : Kind} {m : Mark} {parts : List Node},
      (∀ e, a.fold Compact.algebra = .error e → ∃ e', (Node.node k m parts).fold Compact.algebra = .error e') →
      (Node.node k m parts).compact = .ok inner → ∃ out, a.compact = .ok out := by
    intro a k m parts herror hok
    cases ha : a.fold Compact.algebra with
    | ok p => exact ⟨p.text, by rw [compact, ha]; rfl⟩
    | error e =>
      obtain ⟨e', he'⟩ := herror e ha
      rw [compact, he'] at hok
      cases hok
  unfold operatorTokens? at hts
  split at hts
  · refine forall_mem_singleton.2 (hpart (fun e he => ⟨e, ?_⟩) h)
    rw [fold_node]
    change Except.bind (fold _ _) _ = _
    rw [he]
    rfl
  · refine forall_mem_singleton.2 (hpart (fun e he => ⟨e, ?_⟩) h)
    rw [fold_node]
    change Except.bind (fold _ _) _ = _
    rw [he]
    rfl
  · next op m a b =>
    refine forall_mem_cons.2 ⟨hpart (fun e he => ⟨e, ?_⟩) h, forall_mem_singleton.2 (hpart (fun e he => ?_) h)⟩
    · rw [fold_node]
      change Except.bind (fold _ _) _ = _
      rw [he]
      rfl
    · rw [fold_node]
      change ∃ e', Except.bind (fold _ a) (fun _ => Except.bind (fold _ b) _) = .error e'
      rw [he]
      cases ha : a.fold Compact.algebra with
      | ok p => exact ⟨e, rfl⟩
      | error e' => exact ⟨e', rfl⟩
  · cases hts

/-- The text of an operator is read as the tokens of its operands with the operator between them, before them or
behind them exactly if each operand is read back for itself and nothing fuses. -/
theorem operator_reads_back_iff {text inner : String} {tree n : Node} {p : Parser} {path : Path}
    {ts : List (TokenKind × String)} (h : parse text = (.ok tree, p)) (hn : tree.at? path = some n)
    (hts : n.operatorTokens? = some ts) (hout : n.bare.compact = .ok inner) :
    SplitsInto inner ts ↔ (∀ a ∈ n.operands, a.ReadsBack) ∧ n.fuses = false := by
  obtain ⟨r, hformed⟩ := (parse_formed h).at? hn
  obtain ⟨htokens, hlegible⟩ := hformed.legible_operator hts
  have hread : ∀ a ∈ n.operands, a.ReadsBack ↔ Legible none a.spell.pieces [] := by
    intro a ha
    obtain ⟨out, ha'⟩ := compact_operand hts hout a ha
    rw [← splitsInto_iff (hformed.clean_operand ha).sound, ← compact_eq ha']
    constructor
    · rintro ⟨out', hout', hsplits⟩
      rwa [Except.ok.inj (ha'.symm.trans hout')]
    · intro hsplits
      exact ⟨out, ha', hsplits⟩
  rw [compact_eq hout, ← htokens, splitsInto_iff (hformed.clean_bare hts).sound, hlegible]
  exact and_congr_left' (forall₂_congr fun a ha => (hread a ha).symm)

/-- A minus before a negation makes a decrement of both. -/
theorem operator_fuses_with_negation :
    ∃ tree p n ts, parse "a - -b;" = (.ok tree, p) ∧ tree.compact = .ok "a--b;" ∧ tree.at? [0, 0] = some n ∧
      n.bare.compact = .ok "a--b" ∧ n.operatorTokens? = some ts ∧
      ts = [(.identifier, "a"), (.minus, "-"), (.minus, "-"), (.identifier, "b")] ∧ ¬SplitsInto "a--b" ts := by
  have hcode : ((parse "a - -b;").1.toOption.bind fun tree => (tree.at? [0, 0]).map fun n =>
      (tree.compact.toOption, n.bare.compact.toOption)) = some (some "a--b;", some "a--b") := by decide +kernel
  have htokens : ((parse "a - -b;").1.toOption.bind fun tree => (tree.at? [0, 0]).map fun n =>
      (n.operatorTokens?, n.fuses)) =
      some (some [(.identifier, "a"), (.minus, "-"), (.minus, "-"), (.identifier, "b")], true) := by decide +kernel
  rcases hparse : parse "a - -b;" with ⟨e | tree, p⟩
  · rw [hparse] at hcode
    cases hcode
  rw [hparse] at hcode htokens
  obtain ⟨n, hn, hprinted⟩ := Option.map_eq_some_iff.1 (hcode : (tree.at? [0, 0]).map _ = _)
  replace htokens : (tree.at? [0, 0]).map _ = _ := htokens
  rw [hn] at htokens
  obtain ⟨hts, hfuses⟩ := Prod.mk.inj (Option.some.inj htokens)
  obtain ⟨hcompact, hbare⟩ := Prod.mk.inj hprinted
  have hinner := ok_of_toOption hbare
  refine ⟨tree, p, n, _, rfl, ok_of_toOption hcompact, hn, hinner, hts, rfl, fun hsplits => ?_⟩
  have hfree := ((operator_reads_back_iff hparse hn hts hinner).1 hsplits).2
  rw [hfuses] at hfree
  cases hfree

end JsMinify
