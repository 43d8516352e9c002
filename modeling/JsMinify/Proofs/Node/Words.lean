import JsMinify.Proofs.Node.Spelling
import JsMinify.Proofs.Parser.Shapes

/-!
# The words of a tree

`Node.words` is what a program writes for a tree: the kinds and the texts of its tokens, in their order. The form
of each kind of nodes is a list of segments (`Kind.form`). Which nodes show the parentheses that they stood in is
left open, since the compact form and the laid out form differ in this.
-/

namespace JsMinify

open List

/-- The kind and the text of a token. -/
abbrev Word := TokenKind × String

/-- The text of the tokens of a kind that have all the same one. -/
def TokenKind.text? (k : TokenKind) : Option String :=
  if k = .getProp then some "get" else if k = .setProp then some "set"
  else if k.isFixed then some k.spelled else none

def TokenKind.word (k : TokenKind) : Word := (k, k.text?.getD "")

/-- A segment of the form of a node. -/
inductive Segment where
  /-- A token of a kind with one text. -/
  | word (k : TokenKind)
  /-- The text of the node, as a token of a kind. -/
  | own (k : TokenKind)
  /-- The operator of the node. -/
  | op
  /-- A part, if it is there. -/
  | part (i : Nat)
  /-- A part with tokens before it, if it is there. -/
  | optional (lead : TokenKind) (i : Nat)
  /-- The items of a part. -/
  | list (sep : Option TokenKind) (i : Nat)
  /-- The parts from a number on. -/
  | rest (sep : Option TokenKind) (i : Nat)
  /-- The items of an array. -/
  | elements
  /-- The end of the first part of a `for` header, unless the part brings it along. -/
  | headerEnd
  /-- The word before a variable that is declared by a loop. -/
  | declares
  deriving DecidableEq, Repr

/-- The form of the nodes of a kind, without parentheses around them. -/
def Kind.form : Kind → List Segment
  | .plain => []
  | .program => [.rest none 0]
  | .block => [.word .lbrace, .rest none 0, .word .rbrace]
  | .varStatement => [.word .kwVar, .rest (some .comma) 0, .word .semi]
  | .varDecl => [.part 0, .optional .assign 1]
  | .identifier _ => [.own .identifier]
  | .number _ => [.own .number]
  | .string _ => [.own .string]
  | .regex _ => [.own .regex]
  | .boolean _ => [.op]
  | .null _ => [.word .kwNull]
  | .this => [.word .kwThis]
  | .array => [.word .lbracket, .elements, .word .rbracket]
  | .elision _ => [.word .comma]
  | .object => [.word .lbrace, .rest (some .comma) 0, .word .rbrace]
  | .getter =>
    [.word .getProp, .part 0, .word .lparen, .word .rparen, .word .lbrace, .list none 1, .word .rbrace]
  | .setter =>
    [.word .setProp, .part 0, .word .lparen, .list (some .comma) 1, .word .rparen, .word .lbrace, .list none 2, .word .rbrace]
  | .newExpr => [.word .kwNew, .part 0, .word .lparen, .list (some .comma) 1, .word .rparen]
  | .call => [.part 0, .word .lparen, .rest (some .comma) 1, .word .rparen]
  | .bracket => [.part 0, .word .lbracket, .part 1, .word .rbracket]
  | .dot => [.part 0, .word .period, .part 1]
  | .assign _ | .binary _ => [.part 0, .op, .part 1]
  | .unary _ after => if after then [.part 0, .op] else [.op, .part 0]
  | .conditional => [.part 0, .word .question, .part 1, .word .colon, .part 2]
  | .comma => [.part 0, .word .comma, .part 1]
  | .function _ =>
    [.word .kwFunction, .part 0, .word .lparen, .list (some .comma) 1, .word .rparen, .word .lbrace, .list none 2,
      .word .rbrace]
  | .emptyStmt _ => [.word .semi]
  | .exprStmt => [.part 0, .word .semi]
  | .ifStmt => [.word .kwIf, .word .lparen, .part 0, .word .rparen, .part 1, .optional .kwElse 2]
  | .doWhile =>
    [.word .kwDo, .part 1, .word .kwWhile, .word .lparen, .part 0, .word .rparen, .word .semi]
  | .whileStmt => [.word .kwWhile, .word .lparen, .part 0, .word .rparen, .part 1]
  | .forStmt =>
    [.word .kwFor, .word .lparen, .part 0, .headerEnd, .part 1, .word .semi, .part 2, .word .rparen, .part 3]
  | .forIn =>
    [.word .kwFor, .word .lparen, .declares, .part 0, .word .kwIn, .part 1, .word .rparen, .part 2]
  | .continueStmt => [.word .kwContinue, .part 0, .word .semi]
  | .breakStmt => [.word .kwBreak, .part 0, .word .semi]
  | .returnStmt => [.word .kwReturn, .part 0, .word .semi]
  | .withStmt => [.word .kwWith, .word .lparen, .part 0, .word .rparen, .part 1]
  | .switchStmt =>
    [.word .kwSwitch, .word .lparen, .part 0, .word .rparen, .word .lbrace, .list none 1, .part 2, .word .rbrace]
  | .caseClause => [.word .kwCase, .part 0, .word .colon, .rest none 1]
  | .defaultClause => [.word .kwDefault, .word .colon, .rest none 0]
  | .label => [.part 0, .word .colon, .part 1]
  | .throwStmt => [.word .kwThrow, .part 0, .word .semi]
  | .tryStmt => [.word .kwTry, .part 0, .part 1, .part 2]
  | .catchClause => [.word .kwCatch, .word .lparen, .part 0, .word .rparen, .part 1]
  | .finallyClause => [.word .kwFinally, .part 0]
  | .debugger _ => [.word .kwDebugger, .word .semi]

/-- The text or the operator of a node. -/
def Kind.sign : Kind → String
  | .assign op | .unary op _ | .binary op => op
  | k => k.text?.getD ""

def joined (sep : Option TokenKind) (wss : List (List Word)) : List Word :=
  (sep.toList.map TokenKind.word).intercalate wss

theorem joined_none (wss : List (List Word)) : joined none wss = wss.flatten := by
  induction wss with
  | nil => rfl
  | cons ws wss ih =>
    cases wss with
    | nil => simp [joined]
    | cons us wss =>
      have hcons : joined none (ws :: us :: wss) = ws ++ [] ++ joined none (us :: wss) := intercalate_cons_cons
      rw [hcons, ih, append_nil]
      exact flatten_cons.symm

/-- The words of the items of an array: commas stand after them except the last, and a hole is a comma of its
own. -/
def elementWords : List (Node × List Word) → List Word
  | [] => []
  | (n, ws) :: rest =>
    if n.isElision then TokenKind.comma.word :: elementWords rest
    else if rest.isEmpty then ws
    else ws ++ TokenKind.comma.word :: elementWords rest

def Node.isVarStatement : Node → Bool
  | .node .varStatement _ _ => true
  | _ => false

def Segment.words (k : Kind) (parts : List (Part (List Word))) : Segment → List Word
  | .word t => [t.word]
  | .own t => [(t, k.sign)]
  | .op => [(.ofText k.sign, k.sign)]
  | .part i => (Algebra.part [] parts i).value
  | .optional lead i =>
    if (Algebra.part [] parts i).node.isAbsent then [] else lead.word :: (Algebra.part [] parts i).value
  | .list sep i => joined sep ((Algebra.part [] parts i).items.map (·.2))
  | .rest sep i => joined sep ((parts.drop i).map (·.value))
  | .elements => elementWords (parts.map fun p => (p.node, p.value))
  | .headerEnd => if (Algebra.part [] parts 0).node.isVarStatement then [] else [TokenKind.semi.word]
  | .declares => if (Algebra.part [] parts 0).node.isVarDecl then [TokenKind.kwVar.word] else []

def parensIf (shown : Bool) (ws : List Word) : List Word :=
  if shown then TokenKind.lparen.word :: ws ++ [TokenKind.rparen.word] else ws

namespace Node

/-- The words of trees, where nodes of some kinds show the parentheses that they stood in. -/
def wording (shows : Kind → Bool) : Algebra (List Word) where
  absent := []
  seq := fun _ => []
  node := fun k m parts => parensIf (m.parens && shows k) (k.form.flatMap (Segment.words k parts))

/-- The words of a tree, where nodes of some kinds show the parentheses that they stood in. -/
def words (shows : Kind → Bool) (n : Node) : List Word := n.fold (wording shows)

/-- Whether nodes have a property, with all below them. -/
def everywhere (p : Node → Bool) : Algebra Bool where
  absent := true
  seq := fun ns => p (.seq (ns.map (·.1))) && ns.all (·.2)
  node := fun k m parts => p (.node k m (parts.map (·.node))) && parts.all (·.value)

/-- Every node of a tree has a property. -/
def every (p : Node → Bool) (n : Node) : Bool := n.fold (everywhere p)

variable (p : Node → Bool) {n : Node}

@[simp] theorem every_absent : absent.every p := rfl

@[simp] theorem every_seq (ns : List Node) : (seq ns).every p = (p (seq ns) && ns.all (every p)) := by
  rw [every, fold_seq]
  exact congrArg₂ (fun x b => p (seq x) && b) (map_map.trans (map_id ns)) all_map

@[simp] theorem every_node (k : Kind) (m : Mark) (parts : List Node) :
    (node k m parts).every p = (p (node k m parts) && parts.all (every p)) := by
  rw [every, fold_node]
  exact congrArg₂ (fun x b => p (node k m x) && b) (map_node_asPart _ parts) all_map

theorem every_items (h : n.every p) : ∀ x ∈ n.items, x.every p := by
  cases n with
  | seq ns =>
    rw [every_seq, Bool.and_eq_true] at h
    exact all_eq_true.1 h.2
  | _ => simp [items]

/-- Every node of a tree has a property exactly if those that a path leads to have it. -/
theorem every_iff {p : Node → Bool} : n.every p ↔ ∀ path x, n.at? path = some x → x = .absent ∨ p x := by
  induction n using induct_inner with
  | h n ih =>
    have hsplit : n.every p ↔ (n = .absent ∨ p n) ∧ ∀ x ∈ n.inner, x.every p := by
      cases n <;> simp [inner]
    rw [hsplit]
    constructor
    · rintro ⟨hown, h⟩ path x hx
      cases path with
      | nil =>
        cases n.at?_nil ▸ hx
        exact hown
      | cons i path =>
        obtain ⟨y, hy, hx⟩ := at?_cons_iff.1 hx
        have hmem := mem_of_getElem? hy
        exact (ih y hmem).1 (h y hmem) path x hx
    · intro h
      refine ⟨h [] n n.at?_nil, forall_mem_of_getElem? fun i x hx => ?_⟩
      refine (ih x (mem_of_getElem? hx)).2 fun path y hy => h (i :: path) y ?_
      rw [at?_cons, hx]
      exact hy

theorem every_at? {p : Node → Bool} {x : Node} {path : Path} (h : n.every p) (hx : n.at? path = some x) : x.every p :=
  every_iff.2 fun q y hy => every_iff.1 h (path ++ q) y (by rw [at?_append, hx]; exact hy)

theorem every_mono {p q : Node → Bool} (hpq : ∀ n, p n → q n) (h : n.every p) : n.every q := by
  rw [every_iff] at h ⊢
  exact fun path x hx => (h path x hx).imp_right (hpq x)

/-! ## Words of parts -/

section

variable (shows : Kind → Bool)

@[simp] theorem words_absent : absent.words shows = [] := rfl

/-- A node without a part that is asked for is taken to have an absent one. -/
theorem part_asPart (parts : List Node) (i : Nat) :
    Algebra.part [] (parts.map (asPart (wording shows))) i = asPart (wording shows) (parts.getD i .absent) := by
  simp only [Algebra.part, getD_eq_getElem?_getD, getElem?_map]
  cases parts[i]? <;> rfl

/-- The words of a segment, from those of the parts. -/
def segmentWords (k : Kind) (parts : List Node) (s : Segment) : List Word :=
  s.words k (parts.map (asPart (wording shows)))

theorem words_node (k : Kind) (m : Mark) (parts : List Node) :
    (node k m parts).words shows = parensIf (m.parens && shows k) (k.form.flatMap (segmentWords shows k parts)) := by
  rw [words, fold_node]
  rfl

variable (k : Kind) (parts : List Node)

@[simp] theorem segmentWords_word (t : TokenKind) : segmentWords shows k parts (.word t) = [t.word] := rfl

@[simp] theorem segmentWords_own (t : TokenKind) : segmentWords shows k parts (.own t) = [(t, k.sign)] := rfl

@[simp] theorem segmentWords_op : segmentWords shows k parts .op = [(.ofText k.sign, k.sign)] := rfl

@[simp] theorem segmentWords_part (i : Nat) : segmentWords shows k parts (.part i) = (parts.getD i .absent).words shows := by
  rw [segmentWords, Segment.words, part_asPart]
  rfl

@[simp] theorem segmentWords_optional (lead : TokenKind) (i : Nat) : segmentWords shows k parts (.optional lead i) =
      if (parts.getD i .absent).isAbsent then [] else lead.word :: (parts.getD i .absent).words shows := by
  rw [segmentWords, Segment.words, part_asPart]
  rfl

@[simp] theorem segmentWords_list (sep : Option TokenKind) (i : Nat) :
    segmentWords shows k parts (.list sep i) = joined sep ((parts.getD i .absent).items.map (words shows)) := by
  rw [segmentWords, Segment.words, part_asPart]
  simp only [asPart, map_map]
  rfl

@[simp] theorem segmentWords_rest (sep : Option TokenKind) (i : Nat) :
    segmentWords shows k parts (.rest sep i) = joined sep ((parts.drop i).map (words shows)) := by
  rw [segmentWords, Segment.words, ← map_drop, map_map]
  rfl

@[simp] theorem segmentWords_elements :
    segmentWords shows k parts .elements = elementWords (parts.map fun n => (n, n.words shows)) := by
  rw [segmentWords, Segment.words, map_map]
  rfl

@[simp] theorem segmentWords_headerEnd :
    segmentWords shows k parts .headerEnd = if (parts.getD 0 .absent).isVarStatement then [] else [TokenKind.semi.word] := by
  rw [segmentWords, Segment.words, part_asPart]
  rfl

@[simp] theorem segmentWords_declares :
    segmentWords shows k parts .declares = if (parts.getD 0 .absent).isVarDecl then [TokenKind.kwVar.word] else [] := by
  rw [segmentWords, Segment.words, part_asPart]
  rfl

end

end Node

end JsMinify
