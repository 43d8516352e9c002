import JsMinify.Proofs.Node.Words
import JsMinify.Proofs.Parser.Strip

/-!
# What rules write

The words of what a symbol stands for are given by `Nonterminal.signs`, and `Rule.output` works out what is written
for the node that a rule builds, in terms of the symbols on its right side. `Rule.isLaidOut` checks that this is
what the right side itself writes, from left to right; `rules_laid_out` lists the rules for which it is not, and
`Rule.words_run` says what follows for the others.
-/

namespace JsMinify

open List

namespace Grammar

/-- A stretch of what a rule writes, in terms of the symbols on its right side. -/
inductive Sign where
  /-- A token of a kind with one text. -/
  | word (k : TokenKind)
  /-- The token at a position. -/
  | token (i : Nat)
  /-- The node at a position. -/
  | node (i : Nat)
  /-- The items at a position. -/
  | items (sep : Option TokenKind) (i : Nat)
  /-- The items of the array at a position. -/
  | elements (i : Nat)
  /-- The clauses of the `switch` at a position. -/
  | clauses (i : Nat)
  deriving DecidableEq, Repr

def Value.words : Value → List Word
  | .token t => [t.word]
  | .node _ => []

section

variable (shows : Kind → Bool)

def Sign.words (args : List Item) : Sign → List Word
  | .word k => [k.word]
  | .token i => (arg args i).value.words
  | .node i => (nodeAt args i).words shows
  | .items sep i => joined sep ((nodeAt args i).items.map (Node.words shows))
  | .elements i => elementWords ((nodeAt args i).items.map fun n => (n, n.words shows))
  | .clauses i =>
    joined none (((nodeAt args i).items.getD 0 .absent).items.map (Node.words shows)) ++
      ((nodeAt args i).items.getD 1 .absent).words shows

def wordsOf (args : List Item) (signs : List Sign) : List Word := signs.flatMap (Sign.words shows args)

@[simp] theorem wordsOf_append (args : List Item) (xs ys : List Sign) :
    wordsOf shows args (xs ++ ys) = wordsOf shows args xs ++ wordsOf shows args ys := flatMap_append

@[simp] theorem wordsOf_nil (args : List Item) : wordsOf shows args [] = [] := rfl

@[simp] theorem wordsOf_cons (args : List Item) (x : Sign) (xs : List Sign) :
    wordsOf shows args (x :: xs) = x.words shows args ++ wordsOf shows args xs := flatMap_cons

end

/-- What a nonterminal at a position writes. -/
def Nonterminal.signs (i : Nat) : Nonterminal → List Sign
  | .empty => []
  | .assignmentOperator => [.token i]
  | .initializer _ => [.word .assign, .node i]
  | .arguments => [.word .lparen, .items (some .comma) i, .word .rparen]
  | .argumentList | .parameters | .varDeclList _ | .propertyList => [.items (some .comma) i]
  | .sourceElements | .sourceElementList | .functionBody | .caseClausesOpt | .caseClauses | .elisionOpt
  | .elision => [.items none i]
  | .elementList => [.elements i]
  | .caseBlock => [.word .lbrace, .clauses i, .word .rbrace]
  | _ => [.node i]

def Sym.signs (i : Nat) : Sym → List Sign
  | .t k => if k.text?.isSome then [.word k] else [.token i]
  | .n A => A.signs i

/-- What symbols from a position on write. -/
def signsFrom (i : Nat) : List Sym → List Sign
  | [] => []
  | s :: ss => s.signs i ++ signsFrom (i + 1) ss

/-- A node stands at the position. -/
def isThere (right : List Sym) (i : Nat) : Bool := (roleAt right i).any fun r => !r.omissible && r.place?.isSome

/-- The nonterminal stands for a list that is never empty. -/
def Nonterminal.isSeries : Nonterminal → Bool
  | .argumentList | .parameters | .varDeclList _ | .propertyList => true
  | _ => false

/-- A list that is never empty stands at the position. -/
def isSeriesAt (right : List Sym) (i : Nat) : Bool :=
  match right[i]? with
  | some (.n A) => A.isSeries
  | _ => false

/-! ## The check of a rule -/

/-- What is written for the part that a slot gives. -/
def Slot.signs (right : List Sym) : Slot → Option (List Sign)
  | .nothing => some []
  | .part i | .name i | .decl i => some [.node i]
  | .declInit i j => if isThere right j then some [.node i, .word .assign, .node j] else none
  | .vars i => some [.word .kwVar, .items (some .comma) i, .word .semi]
  | _ => none

/-- What is written for the items of the part that a slot gives. -/
def Slot.listSigns (sep : Option TokenKind) : Slot → Option (List Sign)
  | .list [] => some []
  | .list [i] | .names i | .part i => some [.items sep i]
  | _ => none

/-- What is written for the operator at a position. -/
def opSigns (right : List Sym) (i : Nat) : Option (List Sign) :=
  match right[i]? with
  | some (.t k) => if k.text?.isSome && TokenKind.ofText k.word.2 == k then some [.word k] else none
  | some (.n .assignmentOperator) => some [.token i]
  | _ => none

/-- What is written for a segment of a node with parts from some slots. -/
def segmentSigns (right : List Sym) (op : Option Nat) (slots : List Slot) : Segment → Option (List Sign)
  | .word k => some [.word k]
  | .op => op.bind (opSigns right)
  | .part j => slots[j]?.bind (·.signs right)
  | .optional lead j =>
    match slots[j]? with
    | some .nothing => some []
    | some (.part i) => if isThere right i then some [.word lead, .node i] else none
    | _ => none
  | .list sep j => slots[j]?.bind (·.listSigns sep)
  | .rest sep j =>
    match slots.drop j with
    | [] => if slots.all (·.isSingle) then some [] else none
    | [.items i] => some [.items sep i]
    | _ => none
  | .elements =>
    match slots with
    | [.items i] => if right[i]? == some (.n .elementList) then some [.elements i] else none
    | _ => none
  | .headerEnd =>
    match slots.head? with
    | some (.vars _) => some []
    | some (.part i) => if roleAt right i == some (.optional .expression) then some [.word .semi] else none
    | _ => none
  | .declares =>
    match slots.head? with
    | some (.decl _) | some (.declInit _ _) => some [.word .kwVar]
    | some (.part i) => if roleAt right i == some (.one .expression) then some [] else none
    | _ => none
  | _ => none

def segmentsSigns (f : Segment → Option (List Sign)) : List Segment → Option (List Sign)
  | [] => some []
  | s :: ss => (f s).bind fun xs => (segmentsSigns f ss).map (xs ++ ·)

/-- What is written for a leaf made from the token at a position. -/
def leafSigns (k : TokenKind) (i : Nat) : Segment → Option (List Sign)
  | .word t => some [.word t]
  | .own t => if t = k && k.text?.isNone then some [.token i] else none
  | .op => if k.text?.isSome && TokenKind.ofText k.word.2 == k then some [.word k] else none
  | _ => none

def seqSigns (right : List Sym) (sep : Option TokenKind) : List Slot → Option (List Sign)
  | [] => some []
  | [.part i] => some [.node i]
  | [.items i, .part j] =>
    if sep.isNone || isSeriesAt right i then some (.items sep i :: sep.toList.map .word ++ [.node j]) else none
  | [.leaf .elision _] => if sep.isNone then some [.word .comma] else none
  | [.items i, .leaf .elision _] => if sep.isNone then some [.items none i, .word .comma] else none
  | _ => none

/-- What is written for the node that an action builds. -/
def Action.nodeSigns (right : List Sym) : Action → Option (List Sign)
  | .nameExpr => some [.node 0]
  | .slot (.leaf form i) =>
    match right[i]? with
    | some (.t k) => segmentsSigns (leafSigns k i) (form.kind "").form
    | _ => none
  | .make k _ slots =>
    if slots.dropLast.all (·.isSingle) then segmentsSigns (segmentSigns right none slots) k.form else none
  | .operator form op slots =>
    if slots.dropLast.all (·.isSingle) then segmentsSigns (segmentSigns right (some op) slots) (form.kind "").form
    else none
  | _ => none

/-- What is written for what a rule builds. -/
def Rule.output (r : Rule) : Option (List Sign) :=
  match r.action with
  | .pass i =>
    match r.right[i]? with
    | some (.t k) => if r.left == .assignmentOperator then some ((Sym.t k).signs i) else none
    | _ => some (r.left.signs i)
  | .absent => some ((r.left.signs 0).filter fun s => s matches .word _)
  | .seq slots =>
    match r.left.signs 0 with
    | [.items sep 0] => seqSigns r.right sep slots
    | _ => none
  | a => if r.left.signs 0 == [.node 0] then a.nodeSigns r.right else none

/-- A stretch for a symbol that writes nothing. -/
def Sign.isVoid (right : List Sym) : Sign → Bool
  | .node i | .items _ i => right[i]? == some (.n .empty)
  | _ => false

/-- What is written for what the rule builds is what its right side writes. -/
def Rule.isLaidOut (r : Rule) : Bool :=
  r.output.map (·.filter fun s => !s.isVoid r.right) == some (signsFrom 0 r.right)

/-- The rules whose right side is not written as it stands. Parentheses may be dropped, a comma at the end of an
object or an array is, creation is written with arguments, and the clauses of a `switch` are put in order. -/
def Rule.isRewritten (r : Rule) : Bool :=
  r.action == .parens || r.left == .elementList || r.left == .caseBlock || r.left == .switchStatement ||
    (r.left == .arrayLiteral && r.right.contains (.n .elisionOpt)) ||
    (r.left == .objectLiteral && r.right.contains (.t .comma)) ||
    (r.action matches .make .newExpr _ [_, .list []])

theorem rules_laid_out : ∀ r ∈ rules, r.isRewritten || r.isLaidOut := by decide +kernel

/-! ## Tokens and marks -/

end Grammar

open TokenKind in
/-- The text of a genuine token of a kind with one text. -/
theorem Token.word_of_text? {t : Token} (h : t.isGenuine) (hk : t.kind.text?.isSome) : t.word = t.kind.word := by
  refine Prod.ext rfl ?_
  unfold text? at hk
  unfold TokenKind.word TokenKind.text?
  by_cases hget : t.kind = .getProp
  · rw [isGenuine, hget] at h
    rw [if_pos hget]
    exact beq_iff_eq.1 h
  · by_cases hset : t.kind = .setProp
    · rw [isGenuine, hset] at h
      rw [if_neg hget, if_pos hset]
      exact beq_iff_eq.1 h
    · rw [if_neg hget, if_neg hset] at hk ⊢
      by_cases hfixed : t.kind.isFixed
      · rw [if_pos hfixed]
        exact Token.text_eq_spelled h hfixed
      · rw [if_neg hfixed] at hk
        cases hk

theorem Node.words_modifyMark (shows : Kind → Bool) {f : Mark → Mark} (hf : ∀ m, (f m).parens = m.parens) (n : Node) :
    (n.modifyMark f).words shows = n.words shows := by
  cases n with
  | absent => rfl
  | seq ns => rfl
  | node k m parts => rw [modifyMark, words_node, words_node, hf]

theorem Node.words_asCandidate (shows : Kind → Bool) (n : Node) : n.asCandidate.words shows = n.words shows :=
  words_modifyMark shows (f := fun m => { m with candidate := true }) (fun _ => rfl) n

namespace Grammar

theorem assignmentKinds_text : ∀ k ∈ assignmentKinds, k.text?.isSome ∧ TokenKind.ofText k.word.2 = k := by decide

/-! ## What a slot gives -/

variable {s : Slot} {n : Node} {i : Nat}

section

variable {slots : List Slot} {args : List Item} {j : Nat}

theorem parts_getD (hsingle : (slots.take j).all (·.isSingle)) (hs : slots[j]? = some s)
    (hn : s.fill args = [n]) : (slots.flatMap (Slot.fill args)).getD j .absent = n := by
  induction slots generalizing j with
  | nil => cases hs
  | cons s' slots ih =>
    cases j with
    | zero =>
      cases hs
      rw [flatMap_cons, hn]
      rfl
    | succ j =>
      rw [take_succ_cons, all_cons, Bool.and_eq_true] at hsingle
      obtain ⟨n', hn'⟩ := s'.fill_single hsingle.1 args
      rw [flatMap_cons, hn']
      exact ih hsingle.2 hs

/-- The slots before one are not the last. -/
theorem take_single (hsingle : slots.dropLast.all (·.isSingle)) (hs : slots[j]? = some s) :
    (slots.take j).all (·.isSingle) := by
  obtain ⟨hj, -⟩ := List.getElem?_eq_some_iff.1 hs
  rw [all_eq_true] at hsingle ⊢
  intro x hx
  refine hsingle x (mem_of_mem_take (i := j) ?_)
  rw [dropLast_eq_take, take_take, Nat.min_eq_left (by omega)]
  exact hx

theorem parts_drop (hsingle : slots.dropLast.all (·.isSingle)) (hs : slots.drop j = [.items i]) :
    (slots.flatMap (Slot.fill args)).drop j = (nodeAt args i).items := by
  induction slots generalizing j with
  | nil => cases j <;> cases hs
  | cons s' slots ih =>
    cases j with
    | zero =>
      obtain ⟨rfl, rfl⟩ := List.cons.inj hs
      simp [Slot.fill]
    | succ j =>
      cases slots with
      | nil => cases j <;> cases hs
      | cons s'' slots =>
        rw [dropLast_cons_cons, all_cons, Bool.and_eq_true] at hsingle
        obtain ⟨n', hn'⟩ := s'.fill_single hsingle.1 args
        rw [flatMap_cons, hn']
        exact ih hsingle.2 hs

theorem parts_length (hsingle : slots.all (·.isSingle)) : (slots.flatMap (Slot.fill args)).length = slots.length := by
  induction slots with
  | nil => rfl
  | cons s slots ih =>
    rw [all_cons, Bool.and_eq_true] at hsingle
    obtain ⟨n, hn⟩ := s.fill_single hsingle.1 args
    rw [flatMap_cons, hn, length_append, ih hsingle.2, length_singleton, length_cons]
    omega

end

section

variable (shows : Kind → Bool) {right : List Sym} {args : List Item}
  (h : ItemsHold Suits right args) {signs : List Sign} {sep : Option TokenKind}
  {seg : Segment}

include h

theorem isAbsent_of_isThere (hi : isThere right i) : (nodeAt args i).isAbsent = false := by
  obtain ⟨r, hr, hthere⟩ := (Option.any_eq_true _ _).1 hi
  have hformed := (node_at h hr).2
  cases r with
  | one p => exact hformed.isAbsent_eq_false
  | _ => cases hthere

omit h in
theorem not_declaring {r : Role} (hn : Formed r n) (hr : r.place? = some .expression) :
    n.isVarStatement = false ∧ n.isVarDecl = false := by
  cases hn with
  | @node _ _ k _ _ place takes _ _ _ =>
    cases place.symm.trans hr
    cases k with
    | varStatement | varDecl => cases takes
    | _ => exact ⟨rfl, rfl⟩
  | _ => exact ⟨rfl, rfl⟩

attribute [local simp] Sign.words

theorem Slot.words_signs (hs : s.signs right = some signs) :
    ∃ n, s.fill args = [n] ∧ n.words shows = wordsOf shows args signs := by
  cases s with
  | nothing =>
    cases hs
    exact ⟨_, rfl, rfl⟩
  | part i =>
    cases hs
    exact ⟨_, rfl, (append_nil _).symm⟩
  | name i =>
    cases hs
    exact ⟨_, rfl, (Node.words_asCandidate shows _).trans (append_nil _).symm⟩
  | decl i =>
    cases hs
    refine ⟨_, rfl, ?_⟩
    simp [Node.words_node, Kind.form, parensIf, markAt, Node.words_asCandidate, Node.isAbsent]
  | declInit i j =>
    simp only [Slot.signs] at hs
    obtain ⟨hj, ⟨⟩⟩ := Option.ite_none_right_eq_some.1 hs
    refine ⟨_, rfl, ?_⟩
    simp [Node.words_node, Kind.form, parensIf, markAt, Node.words_asCandidate, isAbsent_of_isThere h hj]
  | vars i =>
    cases hs
    refine ⟨_, rfl, ?_⟩
    simp [Node.words_node, Kind.form, parensIf, markAt]
  | _ => cases hs

omit h in
theorem Slot.words_listSigns (hs : s.listSigns sep = some signs) :
    ∃ n, s.fill args = [n] ∧ joined sep (n.items.map (Node.words shows)) = wordsOf shows args signs := by
  cases s with
  | part i =>
    cases hs
    exact ⟨_, rfl, (append_nil _).symm⟩
  | names i =>
    cases hs
    refine ⟨_, rfl, ?_⟩
    have hwords : (Node.words shows ∘ Node.asCandidate) = Node.words shows := funext (Node.words_asCandidate shows)
    simp [Node.items, hwords]
  | list is =>
    cases is with
    | nil =>
      cases hs
      exact ⟨_, rfl, by simp [Node.items, joined]⟩
    | cons i is =>
      cases is with
      | nil =>
        cases hs
        refine ⟨_, rfl, ?_⟩
        simp [Node.items]
      | cons => cases hs
  | _ => cases hs

/-! ## What a node is written as -/

theorem opSigns_words (hs : opSigns right i = some signs) :
    [(TokenKind.ofText (textAt args i), textAt args i)] = wordsOf shows args signs := by
  unfold opSigns at hs
  split at hs
  · next k hi =>
    obtain ⟨hk, hs⟩ := Option.ite_none_right_eq_some.1 hs
    rw [Bool.and_eq_true, beq_iff_eq] at hk
    cases hs
    obtain ⟨t, ht, hkind, hg⟩ := forall₂_arg h hi
    obtain rfl := mem_singleton.1 hkind
    have htext : textAt args i = t.kind.word.2 := by
      rw [textAt, ht, ← Token.word_of_text? hg hk.1]
      rfl
    rw [htext, hk.2]
    rfl
  · next hi =>
    cases hs
    obtain ⟨t, ht, hkind, hg⟩ := forall₂_arg h hi
    have hop := assignmentKinds_text t.kind hkind
    have hword := Token.word_of_text? hg hop.1
    have htext : textAt args i = t.kind.word.2 := by
      rw [textAt, ht, ← hword]
      rfl
    rw [htext, hop.2]
    simp [wordsOf, ht, Value.words, hword]
    rfl
  · cases hs

theorem segmentSigns_words {k : Kind} {op : Option Nat} {slots : List Slot}
    (hsingle : slots.dropLast.all (·.isSingle)) (hop : ∀ i, op = some i → k.sign = textAt args i)
    (hs : segmentSigns right op slots seg = some signs) :
    Node.segmentWords shows k (slots.flatMap (Slot.fill args)) seg = wordsOf shows args signs := by
  cases seg with
  | word t =>
    cases hs
    rfl
  | own t => cases hs
  | op =>
    obtain ⟨i, hi, hs⟩ := Option.bind_eq_some_iff.1 hs
    rw [Node.segmentWords_op, hop i hi]
    exact opSigns_words shows h hs
  | part j =>
    obtain ⟨s, hj, hs⟩ := Option.bind_eq_some_iff.1 hs
    obtain ⟨n, hn, hwords⟩ := Slot.words_signs shows h hs
    rw [Node.segmentWords_part, parts_getD (take_single hsingle hj) hj hn, hwords]
  | optional lead j =>
    simp only [segmentSigns] at hs
    split at hs
    · next hj =>
      cases hs
      rw [Node.segmentWords_optional, parts_getD (take_single hsingle hj) hj rfl]
      rfl
    · next i hj =>
      obtain ⟨hi, ⟨⟩⟩ := Option.ite_none_right_eq_some.1 hs
      rw [Node.segmentWords_optional, parts_getD (take_single hsingle hj) hj rfl, isAbsent_of_isThere h hi]
      simp
    · cases hs
  | list sep j =>
    obtain ⟨s, hj, hs⟩ := Option.bind_eq_some_iff.1 hs
    obtain ⟨n, hn, hwords⟩ : ∃ n, s.fill args = [n] ∧ _ := Slot.words_listSigns shows hs
    rw [Node.segmentWords_list, parts_getD (take_single hsingle hj) hj hn, hwords]
  | rest sep j =>
    simp only [segmentSigns] at hs
    split at hs
    · next hj =>
      obtain ⟨hall, ⟨⟩⟩ := Option.ite_none_right_eq_some.1 hs
      have hlen : (slots.flatMap (Slot.fill args)).length ≤ j := by
        rw [parts_length hall]
        exact drop_eq_nil_iff.1 hj
      rw [Node.segmentWords_rest, drop_eq_nil_of_le hlen]
      simp [joined]
    · next i hj =>
      cases hs
      rw [Node.segmentWords_rest, parts_drop hsingle hj]
      simp
    · cases hs
  | elements =>
    simp only [segmentSigns] at hs
    split at hs
    · next i =>
      obtain ⟨-, ⟨⟩⟩ := Option.ite_none_right_eq_some.1 hs
      simp [Slot.fill]
    · cases hs
  | headerEnd =>
    simp only [segmentSigns] at hs
    rw [Node.segmentWords_headerEnd]
    split at hs
    · next i hj =>
      cases hs
      rw [parts_getD rfl (head?_eq_getElem? ▸ hj) rfl]
      rfl
    · next i hj =>
      obtain ⟨hi, ⟨⟩⟩ := Option.ite_none_right_eq_some.1 hs
      rw [parts_getD rfl (head?_eq_getElem? ▸ hj) rfl, (not_declaring (node_at h (beq_iff_eq.1 hi)).2 rfl).1]
      rfl
    · cases hs
  | declares =>
    simp only [segmentSigns] at hs
    rw [Node.segmentWords_declares]
    split at hs
    · next i hj =>
      cases hs
      rw [parts_getD rfl (head?_eq_getElem? ▸ hj) rfl]
      rfl
    · next i j hj =>
      cases hs
      rw [parts_getD rfl (head?_eq_getElem? ▸ hj) rfl]
      rfl
    · next i hj =>
      obtain ⟨hi, ⟨⟩⟩ := Option.ite_none_right_eq_some.1 hs
      rw [parts_getD rfl (head?_eq_getElem? ▸ hj) rfl, (not_declaring (node_at h (beq_iff_eq.1 hi)).2 rfl).2]
      rfl
    · cases hs

omit h in
theorem segmentsSigns_words {f : Segment → Option (List Sign)} {g : Segment → List Word}
    (hf : ∀ seg signs, f seg = some signs → g seg = wordsOf shows args signs) {segs : List Segment}
    (hs : segmentsSigns f segs = some signs) : segs.flatMap g = wordsOf shows args signs := by
  induction segs generalizing signs with
  | nil =>
    cases hs
    rfl
  | cons seg segs ih =>
    obtain ⟨xs, hxs, hs⟩ := Option.bind_eq_some_iff.1 hs
    obtain ⟨ys, hys, rfl⟩ := Option.map_eq_some_iff.1 hs
    rw [flatMap_cons, hf seg xs hxs, ih hys, wordsOf_append]

theorem leafSigns_words {form : LeafForm} {k : TokenKind} (hi : right[i]? = some (.t k))
    (hs : leafSigns k i seg = some signs) :
    Node.segmentWords shows (form.kind (textAt args i)) [] seg = wordsOf shows args signs := by
  obtain ⟨t, ht, hkind, hg⟩ := forall₂_arg h hi
  obtain rfl := mem_singleton.1 hkind
  have htext : textAt args i = t.text := by rw [textAt, ht]
  have hsign : (form.kind (textAt args i)).sign = t.text := by
    rw [htext]
    cases form <;> rfl
  cases seg with
  | word t =>
    cases hs
    rfl
  | own k =>
    simp only [leafSigns] at hs
    obtain ⟨hk, hs⟩ := Option.ite_none_right_eq_some.1 hs
    simp only [Bool.and_eq_true, decide_eq_true_eq] at hk
    cases hs
    rw [Node.segmentWords_own, hsign, hk.1]
    simp [ht, Value.words, Token.word]
  | op =>
    simp only [leafSigns] at hs
    obtain ⟨hk, hs⟩ := Option.ite_none_right_eq_some.1 hs
    rw [Bool.and_eq_true, beq_iff_eq] at hk
    cases hs
    have hword : t.text = t.kind.word.2 := congrArg Prod.snd (Token.word_of_text? hg hk.1)
    rw [Node.segmentWords_op, hsign, hword, hk.2]
    rfl
  | _ => cases hs

theorem Action.nodeSigns_words {a : Action} (hs : a.nodeSigns right = some signs) :
    ∃ n, a.run args = .node n ∧ n.words shows = wordsOf shows args signs := by
  cases a with
  | nameExpr =>
    cases hs
    refine ⟨_, rfl, ?_⟩
    exact (Node.words_modifyMark shows (f := fun m => { m with candidate := true, inExpr := true }) (fun _ => rfl) _).trans
      (append_nil _).symm
  | slot s =>
    cases s with
    | leaf form i =>
      simp only [nodeSigns] at hs
      split at hs
      · next k hi =>
        refine ⟨_, rfl, ?_⟩
        have hform : (form.kind (textAt args i)).form = (form.kind "").form := by cases form <;> rfl
        simp only [Slot.fill, headD_cons, Node.words_node, markAt, Bool.false_and, parensIf, Bool.false_eq_true,
          if_false, hform]
        exact segmentsSigns_words shows (fun _ _ => leafSigns_words shows h hi) hs
      · cases hs
    | _ => cases hs
  | make k line slots =>
    simp only [nodeSigns] at hs
    obtain ⟨hsingle, hs⟩ := Option.ite_none_right_eq_some.1 hs
    refine ⟨_, rfl, ?_⟩
    simp only [Node.words_node, markAt, Bool.false_and, parensIf, Bool.false_eq_true, if_false]
    exact segmentsSigns_words shows (fun _ _ => segmentSigns_words shows h hsingle fun _ hi => by cases hi) hs
  | operator form op slots =>
    simp only [nodeSigns] at hs
    obtain ⟨hsingle, hs⟩ := Option.ite_none_right_eq_some.1 hs
    refine ⟨_, rfl, ?_⟩
    have hform : (form.kind (textAt args op)).form = (form.kind "").form := by cases form <;> rfl
    have hsign : (form.kind (textAt args op)).sign = textAt args op := by cases form <;> rfl
    simp only [Node.words_node, markAt, Bool.false_and, parensIf, Bool.false_eq_true, if_false, hform]
    refine segmentsSigns_words shows (fun _ _ => segmentSigns_words shows h hsingle fun i hi => ?_) hs
    rw [hsign, Option.some.inj hi]
  | _ => cases hs

/-! ## What a rule writes -/

omit h in
/-- A nonterminal writes the same wherever it stands. -/
theorem signs_self (A : Nonterminal) (i line : Nat) :
    wordsOf shows [⟨(arg args i).value, line⟩] (A.signs 0) = wordsOf shows args (A.signs i) := by
  cases A <;> rfl

omit h in
theorem joined_snoc (sep : Option TokenKind) {wss : List (List Word)} (ws : List Word) (hne : sep.isNone ∨ wss ≠ []) :
    joined sep (wss ++ [ws]) = joined sep wss ++ (sep.toList.map TokenKind.word ++ ws) := by
  unfold joined
  cases wss with
  | nil =>
    rcases hne with hsep | hne
    · obtain rfl := Option.isNone_iff_eq_none.1 hsep
      simp
    · exact absurd rfl hne
  | cons vs wss =>
    induction wss generalizing vs with
    | nil => simp [intercalate_cons_cons]
    | cons us wss ih =>
      rw [cons_append, cons_append, intercalate_cons_cons, intercalate_cons_cons, ← cons_append, ih us]
      · simp
      · exact hne.imp_right fun _ => cons_ne_nil _ _

theorem absent_at {i : Nat} (hi : right[i]? = some (.n .empty)) : nodeAt args i = .absent := by
  obtain ⟨n, hv, hn⟩ := forall₂_arg h hi
  have hnode : nodeAt args i = n := by rw [nodeAt, hv]
  rw [hnode]
  cases hn with
  | absent => rfl
  | seq list _ => cases list
  | node place _ _ _ _ => cases place

theorem words_of_isVoid {x : Sign} (hx : x.isVoid right) : x.words shows args = [] := by
  cases x with
  | node i => rw [Sign.words, absent_at h (beq_iff_eq.1 hx), Node.words_absent]
  | items sep i =>
    rw [Sign.words, absent_at h (beq_iff_eq.1 hx)]
    simp [Node.items, joined]
  | _ => cases hx

theorem wordsOf_filter (signs : List Sign) :
    wordsOf shows args (signs.filter fun s => !s.isVoid right) = wordsOf shows args signs := by
  induction signs with
  | nil => rfl
  | cons x signs ih =>
    rw [filter_cons, wordsOf_cons]
    split
    · rw [wordsOf_cons, ih]
    · next hx =>
      rw [ih, words_of_isVoid shows h (by simpa using hx)]
      rfl

omit h in
theorem seqSigns_words {slots : List Slot} (hseries : ∀ i, isSeriesAt right i → (nodeAt args i).items ≠ [])
    (hs : seqSigns right sep slots = some signs) :
    joined sep ((slots.flatMap (Slot.fill args)).map (Node.words shows)) = wordsOf shows args signs := by
  unfold seqSigns at hs
  split at hs
  · cases hs
    simp [joined]
  · cases hs
    simp [joined, Slot.fill]
  · next i j =>
    obtain ⟨hi, ⟨⟩⟩ := Option.ite_none_right_eq_some.1 hs
    have hne : sep.isNone ∨ (nodeAt args i).items.map (Node.words shows) ≠ [] := by
      refine (Bool.or_eq_true _ _ ▸ hi).imp_right fun hi => ?_
      rw [Ne, map_eq_nil_iff]
      exact hseries i hi
    simp only [flatMap_cons, flatMap_nil, append_nil, Slot.fill, map_append, map_cons, map_nil]
    rw [joined_snoc sep _ hne]
    cases sep <;> simp
  · obtain ⟨hsep, ⟨⟩⟩ := Option.ite_none_right_eq_some.1 hs
    obtain rfl := Option.isNone_iff_eq_none.1 hsep
    rfl
  · next i j =>
    obtain ⟨hsep, ⟨⟩⟩ := Option.ite_none_right_eq_some.1 hs
    obtain rfl := Option.isNone_iff_eq_none.1 hsep
    simp only [flatMap_cons, flatMap_nil, append_nil, Slot.fill, map_append, map_cons, map_nil]
    rw [joined_snoc none _ (.inl rfl)]
    simp
    rfl
  · cases hs

end

/-- A rule that is laid out writes what its right side writes. -/
theorem Rule.words_run (shows : Kind → Bool) {r : Rule} (hr : r.isLaidOut) {args : List Item}
    (h : ItemsHold Suits r.right args)
    (hseries : ∀ i, isSeriesAt r.right i → (nodeAt args i).items ≠ []) (line : Nat) :
    wordsOf shows [⟨r.action.run args, line⟩] (r.left.signs 0) = wordsOf shows args (signsFrom 0 r.right) := by
  rw [isLaidOut, beq_iff_eq] at hr
  obtain ⟨signs, hout, hright⟩ := Option.map_eq_some_iff.1 hr
  rw [← hright, wordsOf_filter shows h]
  unfold output at hout
  split at hout
  · next i ha =>
    rw [ha]
    split at hout
    · next k hi =>
      obtain ⟨hleft, ⟨⟩⟩ := Option.ite_none_right_eq_some.1 hout
      obtain ⟨t, ht, hkind, hg⟩ := forall₂_arg h hi
      obtain rfl := mem_singleton.1 hkind
      rw [beq_iff_eq.1 hleft]
      simp only [Action.run, ht, Nonterminal.signs, Sym.signs]
      split
      · next hk => simp [Sign.words, arg, Value.words, Token.word_of_text? hg hk]
      · simp only [wordsOf_cons, Sign.words, ht]
        rfl
    · cases hout
      exact signs_self shows r.left i line
  · next ha =>
    cases hout
    rw [ha]
    generalize r.left = A
    cases A <;> rfl
  · next slots ha =>
    split at hout
    · next sep hleft =>
      rw [ha, hleft, ← seqSigns_words shows hseries hout]
      exact append_nil _
    · cases hout
  · obtain ⟨hleft, hout⟩ := Option.ite_none_right_eq_some.1 hout
    obtain ⟨n, hrun, hwords⟩ := Action.nodeSigns_words shows h hout
    rw [hrun, beq_iff_eq.1 hleft, ← hwords]
    exact append_nil _

end Grammar

end JsMinify
