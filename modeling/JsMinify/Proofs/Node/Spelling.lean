import JsMinify.Node.Compact
import JsMinify.Node.Walk
import JsMinify.Proofs.Node.Names

/-!
# The tokens of a compact form

`Node.spell` prints a tree in its compact form token by token. Each `Piece` is a token with its kind, or a
blank, and says by the path of its owner which node it was printed for. `Spelling.printed` forgets the
pieces and keeps the text; it respects all the ways in which printed parts are put together.
-/

namespace JsMinify

/-- The kind of a text that is a punctuator or a word. -/
def TokenKind.ofText (text : String) : TokenKind := (punctuators.lookup text).getD (ofWord text)

/-- A piece of a printed program, with the way to the node that it was printed for. A piece without a kind is
no token: a blank, or what stands for a node without a form. -/
structure Piece where
  kind : Option TokenKind
  text : String
  owner : Path
  deriving DecidableEq, Repr

namespace Piece

/-- The same piece, seen from a node above. -/
def under (i : Nat) (p : Piece) : Piece := { p with owner := i :: p.owner }

/-- The text that pieces make up. -/
def textOf : List Piece → String
  | [] => ""
  | p :: ps => p.text ++ textOf ps

theorem textOf_append (ps qs : List Piece) : textOf (ps ++ qs) = textOf ps ++ textOf qs := by
  induction ps with
  | nil => simp [textOf]
  | cons p ps ih => rw [List.cons_append, textOf, textOf, ih, String.append_assoc]

theorem textOf_under (i : Nat) (ps : List Piece) : textOf (ps.map (under i)) = textOf ps := by
  induction ps with
  | nil => rfl
  | cons p ps ih =>
    rw [List.map_cons, textOf, textOf, ih]
    rfl

theorem textOf_intercalate (sep : List Piece) (pss : List (List Piece)) :
    textOf (sep.intercalate pss) = (textOf sep).intercalate (pss.map textOf) := by
  induction pss with
  | nil => simp [textOf]
  | cons ps pss ih =>
    cases pss with
    | nil => simp
    | cons qs pss =>
      rw [List.intercalate_cons_cons, textOf_append, textOf_append, ih]
      simp only [List.map_cons, String.intercalate_cons_cons]

end Piece

/-- A printed part of a program as pieces. -/
structure Spelling where
  pieces : List Piece
  /-- The part holds an `if` without `else`, outside branches whose braces are already decided. -/
  openIf : Bool := false

namespace Spelling

/-- What is printed. -/
def printed (s : Spelling) : Printed := ⟨Piece.textOf s.pieces, s.openIf⟩

def append (s t : Spelling) : Spelling := ⟨s.pieces ++ t.pieces, s.openIf || t.openIf⟩

instance : Append Spelling := ⟨append⟩

def empty : Spelling := ⟨[], false⟩

/-- A token of the node itself. -/
def tok (k : TokenKind) (text : String) : Spelling := ⟨[⟨some k, text, []⟩], false⟩

def raw (text : String) : Spelling := ⟨[⟨none, text, []⟩], false⟩

def gap : Spelling := raw " "

/-- The part with a number. -/
def under (i : Nat) (s : Spelling) : Spelling := ⟨s.pieces.map (Piece.under i), s.openIf⟩

/-- Parts one after another with a separator between them. -/
def join (sep : List Piece) (ss : List Spelling) : Spelling :=
  ⟨sep.intercalate (ss.map pieces), ss.any openIf⟩

def concat (ss : List Spelling) : Spelling := join [] ss

/-- Parts one after another with commas between them. -/
def commas (ss : List Spelling) : Spelling := join [⟨some .comma, ",", []⟩] ss

def braced (s : Spelling) : Spelling := tok .lbrace "\x7b" ++ s ++ tok .rbrace "\x7d"

def inParens (s : Spelling) : Spelling := tok .lparen "(" ++ s ++ tok .rparen ")"

def parensIf (m : Mark) (s : Spelling) : Spelling := if m.parens then s.inParens else s

/-- The part begins with one of these characters. -/
def startsWith (s : Spelling) (cs : List Char) : Bool := s.printed.startsWith cs

/-- A word before a part, with a blank between them unless the part begins with a bracket. -/
def afterWord (word : Spelling) (s : Spelling) : Spelling :=
  if s.startsWith ['(', '\x7b'] then word ++ s else word ++ gap ++ s

/-- A part between braces unless it begins with one. -/
def bracedOnce (s : Spelling) : Spelling := if s.startsWith ['\x7b'] then s else s.braced

/-- The branch of an `if` with an `else`, printed from a block of one statement. -/
def branch (s : Spelling) : Spelling := if s.openIf then ⟨s.braced.pieces, false⟩ else s

end Spelling

namespace Spell

open Spelling

def absent : Spelling := raw (Node.placeholder .absent)

/-- Parts numbered from `i` on. -/
def numbered (i : Nat) : List Spelling → List Spelling
  | [] => []
  | s :: ss => s.under i :: numbered (i + 1) ss

/-- The parts that are present, numbered from `i` on. -/
def present (i : Nat) : List (Part Spelling) → List Spelling
  | [] => []
  | p :: ps => if p.node.isAbsent then present (i + 1) ps else p.value.under i :: present (i + 1) ps

/-- The items of part `i`, which is a sequence. -/
def items (i : Nat) (p : Part Spelling) : List Spelling :=
  (numbered 0 (p.items.map (·.2))).map (under i)

/-- Part `i`, which may be absent, with `lead` before it. -/
def optional (lead : Spelling) (i : Nat) (p : Part Spelling) : Spelling :=
  if p.node.isAbsent then empty else lead ++ p.value.under i

/-- The items of an array from number `i` on, with commas after them except the last; a hole is a comma of
its own. -/
def arrayItems (i : Nat) : List (Part Spelling) → Spelling
  | [] => empty
  | p :: ps =>
    if p.node.isElision then tok .comma "," ++ arrayItems (i + 1) ps
    else if ps.isEmpty then p.value.under i
    else p.value.under i ++ tok .comma "," ++ arrayItems (i + 1) ps

def op (text : String) : Spelling := tok (.ofText text) text

def operator (text : String) (right : Node) : Spelling :=
  if text = "instanceof" || text = "in" then gap ++ op text ++ gap
  else if text = "+" && right.isIncrement then op text ++ gap
  else op text

def jumpTarget (n : Node) : Spelling :=
  match n.word with
  | .ok name => tok .identifier name
  | .error _ => empty

/-- The form of a node, from those of its parts. -/
def node (k : Kind) (m : Mark) (parts : List (Part Spelling)) : Spelling :=
  let part := Algebra.part absent parts
  let value (i : Nat) : Spelling := (part i).value.under i
  let list (i : Nat) : List Spelling := items i (part i)
  match k with
  | .plain => raw (Node.placeholder (.node .plain m []))
  | .elision s => raw (Node.placeholder (.node (.elision s) m []))
  | .program => concat (present 0 parts)
  | .block =>
    match present 0 parts with
    | [s] => s
    | ss => (concat ss).braced
  | .varStatement => tok .kwVar "var" ++ gap ++ commas (present 0 parts) ++ tok .semi ";"
  | .varDecl => value 0 ++ optional (tok .assign "=") 1 (part 1)
  | .identifier s => tok .identifier s
  | .number s => tok .number s
  | .boolean s => op s
  | .string s => tok .string s
  | .emptyStmt s => op s
  | .null _ => tok .kwNull "null"
  | .this => tok .kwThis "this"
  | .regex s => parensIf m (tok .regex s)
  | .array => tok .lbracket "[" ++ arrayItems 0 parts ++ tok .rbracket "]"
  | .object => (commas (numbered 0 (parts.map (·.value)))).braced
  | .getter =>
    parensIf m (tok .getProp "get" ++ gap ++ value 0 ++ empty.inParens ++ (concat (list 1)).braced)
  | .setter =>
    parensIf m (tok .setProp "set" ++ gap ++ value 0 ++ (concat (list 1)).inParens ++ (concat (list 2)).braced)
  | .newExpr => tok .kwNew "new" ++ gap ++ value 0 ++ (commas (list 1)).inParens
  | .call =>
    parensIf m (value 0 ++ (commas (numbered 1 ((parts.drop 1).map (·.value)))).inParens)
  | .bracket =>
    match Node.memberName? (part 1).node with
    | some name => value 0 ++ tok .period "." ++ tok .identifier name
    | none => value 0 ++ tok .lbracket "[" ++ value 1 ++ tok .rbracket "]"
  | .dot => parensIf m (value 0 ++ tok .period "." ++ value 1)
  | .assign text => parensIf m (value 0 ++ op text ++ value 1)
  | .unary text after =>
    parensIf m (if after then value 0 ++ op text else if Node.isWordOperator text then op text ++ gap ++ value 0
        else op text ++ value 0)
  | .binary text => parensIf m (value 0 ++ operator text (part 1).node ++ value 1)
  | .conditional =>
    parensIf m (value 0 ++ tok .question "?" ++ value 1 ++ tok .colon ":" ++ value 2)
  | .comma => parensIf m (value 0 ++ tok .comma "," ++ value 1)
  | .function form =>
    let name := match form with
      | .declared => gap ++ value 0
      | .expression => optional gap 0 (part 0)
    let s := tok .kwFunction "function" ++ name ++ (commas (list 1)).inParens ++ (concat (list 2)).braced
    match form with
    | .declared => s
    | .expression => parensIf m s
  | .exprStmt => value 0 ++ tok .semi ";"
  | .ifStmt =>
    let test := optional empty 0 (part 0)
    if (part 2).node.isAbsent then ⟨(tok .kwIf "if" ++ test.inParens ++ value 1).pieces, true⟩
    else
      let yes := if (part 1).node.isSingleBlock then (value 1).branch else value 1
      tok .kwIf "if" ++ test.inParens ++ yes ++ afterWord (tok .kwElse "else") (value 2)
  | .doWhile =>
    afterWord (tok .kwDo "do") (value 1) ++ tok .kwWhile "while" ++ (value 0).inParens ++ tok .semi ";"
  | .whileStmt => tok .kwWhile "while" ++ (value 0).inParens ++ value 1
  | .forStmt =>
    let semi := if (part 0).node.needsHeaderSemi then tok .semi ";" else empty
    let header := optional empty 0 (part 0) ++ semi ++ optional empty 1 (part 1) ++ tok .semi ";" ++ optional empty 2 (part 2)
    tok .kwFor "for" ++ header.inParens ++ value 3
  | .forIn =>
    let item := if (part 0).node.isVarDecl then tok .kwVar "var" ++ gap ++ value 0 else value 0
    tok .kwFor "for" ++ (item ++ gap ++ tok .kwIn "in" ++ gap ++ value 1).inParens ++ value 2
  | .continueStmt =>
    if (part 0).node.isAbsent then tok .kwContinue "continue" ++ tok .semi ";"
    else tok .kwContinue "continue" ++ gap ++ (jumpTarget (part 0).node).under 0 ++ tok .semi ";"
  | .breakStmt =>
    if (part 0).node.isAbsent then tok .kwBreak "break" ++ tok .semi ";"
    else tok .kwBreak "break" ++ gap ++ (jumpTarget (part 0).node).under 0 ++ tok .semi ";"
  | .returnStmt =>
    if (part 0).node.isAbsent then tok .kwReturn "return" ++ tok .semi ";"
    else afterWord (tok .kwReturn "return") (value 0) ++ tok .semi ";"
  | .withStmt => tok .kwWith "with" ++ (value 0).inParens ++ value 1
  | .label => value 0 ++ tok .colon ":" ++ value 1
  | .throwStmt => tok .kwThrow "throw" ++ gap ++ value 0 ++ tok .semi ";"
  | .switchStmt =>
    tok .kwSwitch "switch" ++ (value 0).inParens ++ (concat (list 1) ++ optional empty 2 (part 2)).braced
  | .caseClause =>
    tok .kwCase "case" ++ gap ++ value 0 ++ tok .colon ":" ++ concat (numbered 1 ((parts.drop 1).map (·.value)))
  | .defaultClause =>
    tok .kwDefault "default" ++ tok .colon ":" ++ concat (numbered 0 (parts.map (·.value)))
  | .tryStmt =>
    tok .kwTry "try" ++ (value 0).bracedOnce ++ optional empty 1 (part 1) ++ optional empty 2 (part 2)
  | .catchClause => tok .kwCatch "catch" ++ (value 0).inParens ++ (value 1).bracedOnce
  | .finallyClause => tok .kwFinally "finally" ++ (value 0).bracedOnce
  | .debugger s => op s ++ tok .semi ";"

def algebra : Algebra Spelling where
  absent := absent
  seq := fun ns => raw (Node.placeholder (.seq (ns.map (·.1))))
  node := node

end Spell

/-- The compact form of a tree as pieces. -/
def Node.spell (n : Node) : Spelling := n.fold Spell.algebra

/-! ## The printed text -/

namespace Printed

@[simp] theorem text_append (a b : Printed) : (a ++ b).text = a.text ++ b.text := rfl

@[simp] theorem openIf_append (a b : Printed) : (a ++ b).openIf = (a.openIf || b.openIf) := rfl

theorem append_assoc (a b c : Printed) : a ++ b ++ c = a ++ (b ++ c) := by
  cases a
  cases b
  cases c
  exact Printed.mk.injEq _ _ _ _ |>.mpr ⟨String.append_assoc, Bool.or_assoc _ _ _⟩

/-- Two texts in a row are one text. -/
theorem text_text (s t : String) : (⟨s, false⟩ : Printed) ++ (⟨t, false⟩ : Printed) = ⟨s ++ t, false⟩ := rfl

theorem text_text_append (s t : String) (p : Printed) :
    (⟨s, false⟩ : Printed) ++ ((⟨t, false⟩ : Printed) ++ p) = ⟨s ++ t, false⟩ ++ p := by
  rw [← append_assoc, text_text]

@[simp] theorem append_empty (p : Printed) : p ++ (⟨"", false⟩ : Printed) = p := by
  cases p
  exact Printed.mk.injEq _ _ _ _ |>.mpr ⟨String.append_empty, Bool.or_false _⟩

@[simp] theorem empty_append (p : Printed) : (⟨"", false⟩ : Printed) ++ p = p := by
  cases p
  exact Printed.mk.injEq _ _ _ _ |>.mpr ⟨String.empty_append, Bool.false_or _⟩

theorem ext_iff {a b : Printed} : a = b ↔ a.text = b.text ∧ a.openIf = b.openIf := by
  cases a
  cases b
  simp

end Printed

namespace Spelling

variable (s t : Spelling)

@[simp] theorem printed_append : (s ++ t).printed = s.printed ++ t.printed :=
  Printed.ext_iff.2 ⟨Piece.textOf_append _ _, rfl⟩

@[simp] theorem printed_empty : empty.printed = ⟨"", false⟩ := rfl

@[simp] theorem printed_tok (k : TokenKind) (text : String) : (tok k text).printed = ⟨text, false⟩ := by
  simp [printed, tok, Piece.textOf]

@[simp] theorem printed_raw (text : String) : (raw text).printed = ⟨text, false⟩ := by
  simp [printed, raw, Piece.textOf]

@[simp] theorem printed_gap : gap.printed = ⟨" ", false⟩ := printed_raw " "

@[simp] theorem printed_under (i : Nat) : (s.under i).printed = s.printed :=
  Printed.ext_iff.2 ⟨Piece.textOf_under i _, rfl⟩

theorem printed_join (sep : List Piece) (ss : List Spelling) :
    (join sep ss).printed = .join (Piece.textOf sep) (ss.map printed) := by
  refine Printed.ext_iff.2 ⟨?_, ?_⟩
  · simp only [printed, join, Printed.join, Piece.textOf_intercalate, List.map_map]
    rfl
  · simp only [printed, join, Printed.join, List.any_map]
    rfl

@[simp] theorem printed_concat (ss : List Spelling) : (concat ss).printed = .join "" (ss.map printed) :=
  printed_join [] ss

@[simp] theorem printed_commas (ss : List Spelling) : (commas ss).printed = .join "," (ss.map printed) := by
  rw [commas, printed_join]
  congr 1

@[simp] theorem printed_braced : s.braced.printed = s.printed.braced := by
  simp [braced, Printed.braced]

@[simp] theorem printed_inParens : s.inParens.printed = s.printed.inParens := by
  simp [inParens, Printed.inParens]

@[simp] theorem printed_parensIf (m : Mark) : (s.parensIf m).printed = s.printed.parensIf m := by
  unfold parensIf Printed.parensIf
  split <;> simp

@[simp] theorem printed_afterWord (k : TokenKind) (word : String) :
    (afterWord (tok k word) s).printed = .afterWord word s.printed := by
  unfold afterWord Printed.afterWord startsWith
  split <;> simp

@[simp] theorem printed_bracedOnce : s.bracedOnce.printed = s.printed.bracedOnce := by
  unfold bracedOnce Printed.bracedOnce startsWith
  split <;> simp

@[simp] theorem printed_branch : s.branch.printed = s.printed.branch := by
  have hopen : s.printed.openIf = s.openIf := rfl
  have hbraced : Piece.textOf s.braced.pieces = s.printed.braced.text := by
    rw [← printed_braced]
    rfl
  unfold branch Printed.branch
  rw [hopen]
  split
  · simp only [printed, hbraced]
  · rfl

end Spelling

end JsMinify
