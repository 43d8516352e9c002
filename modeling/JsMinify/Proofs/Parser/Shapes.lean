import JsMinify.Proofs.Node.Formed
import JsMinify.Proofs.Parser.Actions
import JsMinify.Proofs.Parser.Derivation

/-!
# The shape of parsed trees

`Suits` says what a symbol of the grammar stands for: a token, or a part of a tree in the role of the symbol.
`Rule.keepsShape` checks that a rule builds what its left side stands for, `rules_keep_shape` that all rules
do, and `parse_formed` follows for every parsed text.
-/

namespace JsMinify

open List Option

namespace TokenKind

variable {r : Role} {p : Place}

/-- The words and punctuators whose text is fixed by their kind. -/
def fixed : List (String × TokenKind) := reserved ++ punctuators

/-- All tokens of the kind have the same text. -/
def isFixed (k : TokenKind) : Bool := fixed.any (·.2 == k)

/-- The text of the tokens of a fixed kind. -/
def spelled (k : TokenKind) : String := ((fixed.find? (·.2 == k)).map (·.1)).getD ""

theorem fixed_nodup : (fixed.map Prod.snd).Nodup := by decide

theorem spelled_of_mem {p : String × TokenKind} (hp : p ∈ fixed) : p.2.spelled = p.1 := by
  have hsome : (fixed.find? (·.2 == p.2)).isSome := by
    rw [find?_isSome]
    exact ⟨p, hp, beq_self_eq_true _⟩
  obtain ⟨q, hq⟩ := isSome_iff_exists.1 hsome
  have hfound := find?_some hq
  have hkind : q.2 = p.2 := beq_iff_eq.1 hfound
  rw [spelled, hq, inj_on_of_nodup_map fixed_nodup (mem_of_find?_eq_some hq) hp hkind]
  rfl

theorem not_isFixed : ∀ k ∈ ([.string, .regex, .number, .identifier, .getProp, .setProp, .lineEnd, .lineComment,
    .blockComment] : List TokenKind), ¬k.isFixed := by decide

end TokenKind

open TokenKind in
/-- The text of a genuine token of a fixed kind. -/
theorem Token.text_eq_spelled {t : Token} (h : t.isGenuine) (hk : t.kind.isFixed) : t.text = t.kind.spelled := by
  have hfree : t.kind ∉ ([.string, .regex, .number, .identifier, .getProp, .setProp, .lineEnd, .lineComment,
      .blockComment] : List TokenKind) := fun hm => not_isFixed _ hm hk
  have hrule : Lexeme.rule? t.text.toList = some (t.kind, t.text.toList.length) := by
    unfold isGenuine Lexeme.isWhole at h
    split at h
    · simp_all
    · simp_all
    · simp_all
    · simp_all
    · simp_all
    · split at h
      · simp_all
      · simp_all
      · exact beq_iff_eq.1 h
  suffices hmem : (t.text, t.kind) ∈ fixed from (spelled_of_mem hmem).symm
  generalize hn : t.text.toList.length = n at hrule
  generalize hkind : t.kind = k at *
  cases Lexeme.form_of_rule? hrule with
  | word hw =>
    subst hn
    rw [take_length, String.ofList_toList] at hfree ⊢
    rcases Lexeme.ofWord_cases t.text with he | hmem
    · rw [he] at hfree
      simp at hfree
    · exact mem_append_left _ hmem
  | @punctuator p listed hp =>
    have hlen : p.1.toList.length = t.text.toList.length := by rw [hn, String.length_toList]
    have heq : p.1 = t.text :=
      String.toList_inj.1 ((List.isPrefixOf_iff_prefix.1 hp).eq_of_length hlen)
    rw [← heq]
    exact mem_append_right _ listed
  | _ => simp at hfree

namespace Grammar

def assignmentKinds : List TokenKind :=
  [.assign, .timesAssign, .divideAssign, .moduloAssign, .plusAssign, .minusAssign, .shiftLeftAssign,
    .shiftRightAssign, .shiftZeroAssign, .bitAndAssign, .bitXorAssign, .bitOrAssign]

/-- The role of what a nonterminal stands for. -/
def Nonterminal.role : Nonterminal → Role
  | .empty => .nothing
  | .program => .one .program
  | .sourceElements | .functionBody => .optionalList .statement
  | .sourceElementList => .list .statement
  | .block => .one .block
  | .sourceElement | .statement | .varStatement | .emptyStatement | .exprStatement | .ifStatement | .iteration
  | .continueStatement | .breakStatement | .returnStatement | .withStatement | .switchStatement | .labelled
  | .throwStatement | .tryStatement | .debuggerStatement | .functionDecl => .one .statement
  | .expr _ _ | .literal | .booleanLiteral | .nullLiteral | .regexLiteral | .arrayLiteral | .objectLiteral
  | .unaryCommon | .initializer _ | .functionExpr => .one .expression
  | .numericLiteral | .stringLiteral | .propertyName => .one .key
  | .identifier => .one .name
  | .elementList | .elisionOpt | .elision => .list .element
  | .propertyList => .list .property
  | .property => .one .property
  | .arguments => .optionalList .expression
  | .argumentList => .list .expression
  | .varDeclList _ => .list .declaration
  | .varDecl _ => .one .declaration
  | .exprOpt _ => .optional .expression
  | .caseClausesOpt => .optionalList .caseClause
  | .caseClauses => .list .caseClause
  | .caseClause => .one .caseClause
  | .defaultClause => .one .defaultClause
  | .catchClause => .one .catchClause
  | .finallyClause => .one .finallyClause
  | .parameters => .list .name
  | .assignmentOperator | .caseBlock => .nothing

/-- A genuine token of one of some kinds. -/
def IsToken (ks : List TokenKind) (v : Value) : Prop :=
  ∃ t, v = .token t ∧ t.kind ∈ ks ∧ t.isGenuine = true

/-- The parts of a `switch` after its value. -/
def IsCaseBlock (v : Value) : Prop :=
  ∃ clauses last, v = .node (.seq [clauses, last]) ∧ Formed (.list .caseClause) clauses ∧ Formed (.optional .defaultClause) last

/-- What a symbol stands for. -/
def Suits : Sym → Value → Prop
  | .t k, v => IsToken [k] v
  | .n .assignmentOperator, v => IsToken assignmentKinds v
  | .n .caseBlock, v => IsCaseBlock v
  | .n x, v => ∃ n, v = .node n ∧ Formed x.role n

/-! ## The check of a rule -/

/-- The kinds of the token at a position. -/
def kindsAt (right : List Sym) (i : Nat) : List TokenKind :=
  match right[i]? with
  | some (.t k) => [k]
  | some (.n .assignmentOperator) => assignmentKinds
  | _ => []

def roleAt (right : List Sym) (i : Nat) : Option Role :=
  match right[i]? with
  | some (.t _) | some (.n .assignmentOperator) | some (.n .caseBlock) | none => none
  | some (.n x) => some x.role

def itemsAt (right : List Sym) (i : Nat) : Option Place := (roleAt right i).bind Role.items?

/-- The kind of a token whose text a leaf takes, if it can be any text of that kind. -/
def LeafForm.free : LeafForm → Option TokenKind
  | .number => some .number
  | .string => some .string
  | .regex => some .regex
  | .identifier => some .identifier
  | _ => none

/-- A leaf made from a token may stand in a place. -/
def LeafForm.fits (form : LeafForm) (p : Place) (k : TokenKind) : Bool :=
  p.takes (form.kind k.spelled) && (form.free == some k || (form.free.isNone && k.isFixed && (form.kind k.spelled).worded))

/-- A slot gives one node in some role. -/
def Slot.fits (right : List Sym) (r : Role) : Slot → Bool
  | .nothing => r.omissible
  | .part i | .name i => (roleAt right i).any (·.le r)
  | .items _ => false
  | .list is => r.items?.any fun p => is.all fun i => itemsAt right i == some p
  | .names i => r.items?.any fun p => itemsAt right i == some p
  | .leaf form i => r.place?.any fun p => !(kindsAt right i).isEmpty && (kindsAt right i).all (form.fits p)
  | .decl i => r.place?.any (·.takes .varDecl) && (roleAt right i).any (·.le (.one .name))
  | .declInit i j => r.place?.any (·.takes .varDecl) && (roleAt right i).any (·.le (.one .name)) &&
      (roleAt right j).any (·.le (.optional .expression))
  | .vars i => r.place?.any (·.takes .varStatement) && itemsAt right i == some .declaration

/-- A slot gives nodes in one place. -/
def Slot.spreads (right : List Sym) (p : Place) : Slot → Bool
  | .items i => itemsAt right i == some p
  | s => s.fits right (.one p)

/-- Slots give the parts of a node. -/
def fill? (right : List Sym) : List Role → Option Place → List Slot → Bool
  | [.list .caseClause, .optional .defaultClause], none, [.items i] => right[i]? == some (.n .caseBlock)
  | [], none, slots => slots.isEmpty
  | [], some p, slots => slots.all (·.spreads right p)
  | r :: rs, rest, s :: slots => s.fits right r && fill? right rs rest slots
  | _ :: _, _, [] => false

/-- A node of a kind in some role has its parts from slots. -/
def builds (right : List Sym) (r : Role) (slots : List Slot) (k : Kind) : Bool :=
  r.place?.any (·.takes k) && k.worded && fill? right k.shape.first k.shape.rest slots

/-- An action builds a part of a tree in some role. -/
def Action.builds (right : List Sym) (r : Role) : Action → Bool
  | .pass i => (roleAt right i).any (·.le r)
  | .absent => r.omissible
  | .seq slots => r.items?.any fun p => slots.all (·.spreads right p)
  | .slot s => s.fits right r
  | .make k _ slots => Grammar.builds right r slots k
  | .operator form op slots =>
    !(kindsAt right op).isEmpty && (kindsAt right op).all fun k =>
      k.isFixed && Grammar.builds right r slots (form.kind k.spelled)
  | .nameExpr => (roleAt right 0).any (·.le r)
  | .parens => (roleAt right 1).any (·.le r)

/-- A rule builds what its left side stands for. -/
def Rule.keepsShape (r : Rule) : Bool :=
  match r.left with
  | .assignmentOperator => r.action = .pass 0 && assignmentKinds.any fun k => r.right == [.t k]
  | .caseBlock =>
    match r.action with
    | .seq [s, s'] => s.fits r.right (.list .caseClause) && s'.fits r.right (.optional .defaultClause)
    | _ => false
  | x => r.action.builds r.right x.role

theorem rules_keep_shape : ∀ r ∈ rules, r.keepsShape := by decide +kernel

/-! ## What a rule builds -/

theorem declaration_formed {name value : Node} (hr : r.place?.any (·.takes .varDecl))
    (hname : Formed (.one .name) name) (hvalue : Formed (.optional .expression) value) (m : Mark) :
    Formed r (.node .varDecl m [name, value]) := by
  obtain ⟨p, hp, htakes⟩ := (any_eq_true _ _).1 hr
  refine .node hp htakes rfl rfl ?_
  intro j part hpart
  rcases j with _ | _ | j
  · cases hpart
    exact hname
  · cases hpart
    exact hvalue
  · cases hpart

section

variable {right : List Sym} {args : List Item}
  (h : ItemsHold Suits right args) {i : Nat} {s : Slot} {slots : List Slot}

include h

theorem token_at (hne : (kindsAt right i).isEmpty = false) :
    ∃ t : Token, textAt args i = t.text ∧ t.kind ∈ kindsAt right i ∧ t.isGenuine := by
  have hv : IsToken (kindsAt right i) (arg args i).value := by
    unfold kindsAt at *
    split at hne
    · next hs => exact forall₂_arg h hs
    · next hs => exact forall₂_arg h hs
    · cases hne
  obtain ⟨t, ht, hk, hg⟩ := hv
  exact ⟨t, by rw [textAt, ht], hk, hg⟩

theorem node_at (hr : roleAt right i = some r) : (arg args i).value = .node (nodeAt args i) ∧ Formed r (nodeAt args i) := by
  unfold roleAt at hr
  split at hr
  · cases hr
  · cases hr
  · cases hr
  · cases hr
  · next x hassign hcase hs =>
    cases hr
    have hsuits := forall₂_arg h hs
    obtain ⟨n, hv, hn⟩ : ∃ n, (arg args i).value = .node n ∧ Formed x.role n := by
      unfold Suits at hsuits
      split at hsuits
      · next he => cases he
      · next he => exact absurd (Sym.n.inj he) hassign
      · next he => exact absurd (Sym.n.inj he) hcase
      · next he =>
        obtain rfl := Sym.n.inj he
        exact hsuits
    have hnode : nodeAt args i = n := by rw [nodeAt, hv]
    rw [hnode]
    exact ⟨hv, hn⟩

theorem items_at (hp : itemsAt right i = some p) : ∀ x ∈ (nodeAt args i).items, Formed (.one p) x := by
  obtain ⟨r, hr, hitems⟩ := bind_eq_some_iff.1 hp
  exact (node_at h hr).2.items hitems

theorem formed_at (hr : (roleAt right i).any (·.le r)) : Formed r (nodeAt args i) := by
  obtain ⟨r', hr', hle⟩ := (any_eq_true _ _).1 hr
  exact (node_at h hr').2.mono hle

/-- A leaf in a place that takes its kind. -/
theorem leaf_formed {form : LeafForm} (hr : r.place? = some p) (hne : (kindsAt right i).isEmpty = false)
    (hfits : (kindsAt right i).all (form.fits p)) (m : Mark) : Formed r (.node (form.kind (textAt args i)) m []) := by
  obtain ⟨t, htext, hk, hg⟩ := token_at h hne
  have hleaf := all_eq_true.1 hfits t.kind hk
  simp only [LeafForm.fits, Bool.and_eq_true, Bool.or_eq_true, beq_iff_eq, isNone_iff_eq_none] at hleaf
  obtain ⟨htakes, hword⟩ := hleaf
  have hshape : (form.kind (textAt args i)).shape = ⟨[], none⟩ := by cases form <;> rfl
  have htakes' : p.takes (form.kind (textAt args i)) := by
    rw [← htakes]
    cases form <;> cases p <;> rfl
  have hworded : (form.kind (textAt args i)).worded := by
    rw [htext]
    rcases hword with hfree | ⟨⟨-, hfixed⟩, hworded⟩
    · unfold Token.isGenuine at hg
      cases form <;> simp only [LeafForm.free, reduceCtorEq, some.injEq] at hfree <;>
      · rw [← hfree] at hg
        exact hg
    · rw [Token.text_eq_spelled hg hfixed]
      exact hworded
  refine .node hr htakes' hworded (by rw [hshape]; rfl) ?_
  intro j part hpart
  cases hpart

/-- A slot gives one node in its role. -/
theorem Slot.fill_fits (hs : s.fits right r) : ∃ n, s.fill args = [n] ∧ Formed r n := by
  cases s with
  | nothing => exact ⟨_, rfl, .absent hs⟩
  | part i => exact ⟨_, rfl, formed_at h hs⟩
  | name i => exact ⟨_, rfl, (formed_at h hs).modifyMark _⟩
  | items i => cases hs
  | list is =>
    obtain ⟨p, hp, hall⟩ := (any_eq_true _ _).1 hs
    refine ⟨_, rfl, .seq hp fun n hn => ?_⟩
    obtain ⟨i, hi, hn⟩ := mem_flatMap.1 hn
    exact items_at h (beq_iff_eq.1 (all_eq_true.1 hall i hi)) n hn
  | names i =>
    obtain ⟨p, hp, hitems⟩ := (any_eq_true _ _).1 hs
    refine ⟨_, rfl, .seq hp fun n hn => ?_⟩
    obtain ⟨x, hx, rfl⟩ := mem_map.1 hn
    exact (items_at h (beq_iff_eq.1 hitems) x hx).modifyMark _
  | leaf form i =>
    obtain ⟨p, hp, hleaf⟩ := (any_eq_true _ _).1 hs
    rw [Bool.and_eq_true, Bool.not_eq_true'] at hleaf
    exact ⟨_, rfl, leaf_formed h hp hleaf.1 hleaf.2 _⟩
  | decl i =>
    simp only [fits, Bool.and_eq_true] at hs
    exact ⟨_, rfl, declaration_formed hs.1 ((formed_at h hs.2).modifyMark _) (.absent rfl) _⟩
  | declInit i j =>
    simp only [fits, Bool.and_eq_true] at hs
    exact ⟨_, rfl, declaration_formed hs.1.1 ((formed_at h hs.1.2).modifyMark _) (formed_at h hs.2) _⟩
  | vars i =>
    simp only [fits, Bool.and_eq_true, beq_iff_eq] at hs
    obtain ⟨p, hp, htakes⟩ := (any_eq_true _ _).1 hs.1
    refine ⟨_, rfl, .node hp htakes rfl (by simp [Kind.shape, Shape.admits]) fun j part hpart => ?_⟩
    exact items_at h hs.2 part (mem_of_getElem? hpart)

theorem Slot.fill_spreads (hs : s.spreads right p) : ∀ n ∈ s.fill args, Formed (.one p) n := by
  by_cases hi : ∃ i, s = .items i
  · obtain ⟨i, rfl⟩ := hi
    exact items_at h (beq_iff_eq.1 hs)
  · have hfits : s.fits right (.one p) := by
      cases s <;> first | exact hs | exact absurd ⟨_, rfl⟩ hi
    obtain ⟨n, hn, hformed⟩ := fill_fits h hfits
    rw [hn]
    simpa using hformed

/-- Slots give the parts of a shape. -/
theorem fill?_formed {rs : List Role} {rest : Option Place} (hf : fill? right rs rest slots) :
    (Shape.mk rs rest).admits (slots.flatMap (Slot.fill args)).length ∧
      ∀ i part, (slots.flatMap (Slot.fill args))[i]? = some part → Formed ((Shape.mk rs rest).role i) part := by
  fun_induction fill? right rs rest slots with
  | case1 i =>
    obtain ⟨clauses, last, hv, hclauses, hlast⟩ := forall₂_arg h (beq_iff_eq.1 hf)
    have hparts : [Slot.items i].flatMap (Slot.fill args) = [clauses, last] := by
      simp [Slot.fill, nodeAt, hv, Node.items]
    rw [hparts]
    refine ⟨rfl, fun j part hpart => ?_⟩
    rcases j with _ | _ | j
    · cases hpart
      exact hclauses
    · cases hpart
      exact hlast
    · cases hpart
  | case2 slots =>
    obtain rfl := isEmpty_iff.1 hf
    exact ⟨rfl, fun j part hpart => by cases hpart⟩
  | case3 p slots =>
    refine ⟨by simp [Shape.admits], fun j part hpart => ?_⟩
    obtain ⟨s, hs, hpart⟩ := mem_flatMap.1 (mem_of_getElem? hpart)
    exact Slot.fill_spreads h (all_eq_true.1 hf s hs) part hpart
  | case4 r rs rest s slots _ ih =>
    rw [Bool.and_eq_true] at hf
    obtain ⟨n, hn, hformed⟩ := Slot.fill_fits h hf.1
    obtain ⟨hcount, hparts⟩ := ih hf.2
    rw [flatMap_cons, hn, singleton_append]
    refine ⟨by simpa [Shape.admits] using hcount, fun j part hpart => ?_⟩
    cases j with
    | zero =>
      cases hpart
      exact hformed
    | succ j => exact hparts j part hpart
  | case5 => cases hf

theorem builds_formed {k : Kind} (hb : builds right r slots k) (m : Mark) :
    Formed r (.node k m (slots.flatMap (Slot.fill args))) := by
  simp only [builds, Bool.and_eq_true] at hb
  obtain ⟨⟨hplace, hworded⟩, hfill⟩ := hb
  obtain ⟨p, hp, htakes⟩ := (any_eq_true _ _).1 hplace
  obtain ⟨hcount, hparts⟩ := fill?_formed h hfill
  exact .node hp htakes hworded hcount hparts

/-- An action builds a part of a tree in its role. -/
theorem Action.run_formed {a : Action} (ha : a.builds right r) : ∃ n, a.run args = .node n ∧ Formed r n := by
  cases a with
  | pass i =>
    obtain ⟨r', hr', hle⟩ := (any_eq_true _ _).1 ha
    obtain ⟨hv, hn⟩ := node_at h hr'
    exact ⟨_, hv, hn.mono hle⟩
  | absent => exact ⟨_, rfl, .absent ha⟩
  | seq slots =>
    obtain ⟨p, hp, hall⟩ := (any_eq_true _ _).1 ha
    refine ⟨_, rfl, .seq hp fun n hn => ?_⟩
    obtain ⟨s, hs, hn⟩ := mem_flatMap.1 hn
    exact Slot.fill_spreads h (all_eq_true.1 hall s hs) n hn
  | slot s =>
    obtain ⟨n, hn, hformed⟩ := Slot.fill_fits h ha
    exact ⟨n, by rw [run, hn]; rfl, hformed⟩
  | make k line slots => exact ⟨_, rfl, builds_formed h ha _⟩
  | operator form op slots =>
    simp only [builds, Bool.and_eq_true, Bool.not_eq_true'] at ha
    obtain ⟨t, htext, hk, hg⟩ := token_at h ha.1
    have hkind := all_eq_true.1 ha.2 t.kind hk
    rw [Bool.and_eq_true] at hkind
    refine ⟨_, rfl, ?_⟩
    rw [htext, Token.text_eq_spelled hg hkind.1]
    exact builds_formed h hkind.2 _
  | nameExpr | parens => exact ⟨_, rfl, (formed_at h ha).modifyMark _⟩

end

theorem suits_node {x : Nonterminal} (hassign : x ≠ .assignmentOperator) (hcase : x ≠ .caseBlock) {v : Value} :
    Suits (.n x) v ↔ ∃ n, v = .node n ∧ Formed x.role n := by
  cases x <;> first | rfl | exact absurd rfl hassign | exact absurd rfl hcase

/-- A rule of the grammar builds what its left side stands for. -/
theorem Rule.run_suits {r : Rule} (hr : r ∈ rules) {args : List Item} (h : ItemsHold Suits r.right args) :
    Suits (.n r.left) (r.action.run args) := by
  have hkeeps := rules_keep_shape r hr
  unfold keepsShape at hkeeps
  split at hkeeps
  · next hleft =>
    rw [Bool.and_eq_true, decide_eq_true_eq] at hkeeps
    obtain ⟨k, hk, hright⟩ := any_eq_true.1 hkeeps.2
    obtain ⟨t, ht, hkind, hg⟩ := forall₂_arg h (i := 0) (by rw [beq_iff_eq.1 hright]; rfl)
    rw [hleft, hkeeps.1]
    refine ⟨t, ht, ?_, hg⟩
    rw [mem_singleton.1 hkind]
    exact hk
  · next hleft =>
    split at hkeeps
    · next s s' haction =>
      rw [Bool.and_eq_true] at hkeeps
      obtain ⟨clauses, hc, hclauses⟩ := Slot.fill_fits h hkeeps.1
      obtain ⟨last, hl, hlast⟩ := Slot.fill_fits h hkeeps.2
      rw [hleft, haction]
      refine ⟨clauses, last, ?_, hclauses, hlast⟩
      simp [Action.run, hc, hl]
    · cases hkeeps
  · next hassign hcase => exact (suits_node hassign hcase).2 (Action.run_formed h hkeeps)

end Grammar

open Grammar Lexer

/-- The tokens that a run has shifted, and those it still has to, are genuine. -/
structure Recorded.Genuine (r : Recorded) : Prop where
  pushed : ∀ t ∈ r.config.parser.lexer.pushed, t.isGenuine = true
  ahead : ∀ t, r.config.ahead = some (some t) → t.isGenuine = true
  shifted : ∀ s ∈ r.shifted, s.token.isGenuine = true

namespace Recorded.Genuine

/-- A step reads and makes up genuine tokens only. -/
theorem step {r : Recorded} (h : Genuine r) {c : Config} (hs : r.config.step = .next c) : Genuine (r.follow c) := by
  cases Config.goes_of_step hs with
  | reduce =>
    rw [follow_reduced]
    exact ⟨h.pushed, h.ahead, h.shifted⟩
  | read _ unread token =>
    rw [follow_unread unread]
    obtain ⟨hread, hpushed⟩ := token_genuine h.pushed token
    refine ⟨hpushed, fun t ht => ?_, h.shifted⟩
    exact hread t (some.inj ht)
  | shift _ look _ =>
    rw [follow_shift look rfl]
    refine ⟨h.pushed, fun t ht => (by cases ht), fun s hs => ?_⟩
    rcases mem_append.1 hs with hs | hs
    · exact h.shifted s hs
    · rw [mem_singleton.1 hs]
      exact h.ahead _ look
  | @putOff look _ ahead _ _ fresh =>
    have hsemi : ∀ t, (r.config.putOffBy look).ahead = some (some t) → t.isGenuine := by
      intro t ht
      cases some.inj ht
      cases look <;> exact semi_genuine _ _
    have hpushed : ∀ t ∈ (r.config.putOffBy look).parser.lexer.pushed, t.isGenuine := by
      intro t ht
      have hmem : t ∈ look.toList ++ r.config.parser.lexer.pushed := by
        cases look <;> exact ht
      rcases mem_append.1 hmem with ht | ht
      · exact h.ahead t (by rw [ahead, mem_toList.1 ht])
      · exact h.pushed t ht
    rw [follow_putOff ahead fresh]
    exact ⟨hpushed, hsemi, h.shifted⟩

end Recorded.Genuine

variable {text : String} {tree : Node}

/-- What holds of genuine tokens, and is kept by the rules, holds of a parsed tree. -/
theorem parse_keeps {P : Sym → Value → Prop} {p : Parser} (h : parse text = (.ok tree, p))
    (token : ∀ t : Token, t.isGenuine → P (.t t.kind) (.token t))
    (rule : ∀ r ∈ rules, ∀ items, ItemsHold P r.right items → P (.n r.left) (r.action.run items)) : P (.n .program) (.node tree) := by
  obtain ⟨d, valid, symbol, tokens, value⟩ := ((start_traced text).record _).accepted (record_accepted h)
  have hgenuine := (record_keeps (P := Recorded.Genuine) (r := { config := Config.start text }) (fun _ _ h => h.step)
    ⟨by simp [Config.start, Lexer.input], by simp [Config.start], by simp⟩ (Parser.budget text.length)).shifted
  rw [← symbol, ← value]
  refine valid.keeps (fun t ht => ?_) rule
  rw [tokens] at ht
  obtain ⟨s, hs, rfl⟩ := mem_map.1 ht
  exact token _ (hgenuine s hs)

/-- A parsed tree is made up as the kinds of its nodes ask for. -/
theorem parse_formed {p : Parser} (h : parse text = (.ok tree, p)) : Formed (.one .program) tree := by
  have hsuits : Suits (.n .program) (.node tree) :=
    parse_keeps h (fun t ht => ⟨t, rfl, mem_singleton_self _, ht⟩) fun r hr items hitems => Rule.run_suits hr hitems
  obtain ⟨n, hn, hformed⟩ := hsuits
  cases hn
  exact hformed

theorem ok_of_toOption {ε α : Type} {e : Except ε α} {a : α} (h : e.toOption = some a) : e = .ok a := by
  cases e with
  | error => cases h
  | ok b => rw [some.inj h]

/-- A text that is parsed into a tree that passes a test. -/
theorem exists_of_test (text : String) (test : Node → Bool) (h : (parse text).1.toOption.any test) :
    ∃ tree p, parse text = (.ok tree, p) ∧ test tree := by
  rcases hparse : parse text with ⟨e | tree, p⟩
  · rw [hparse] at h
    cases h
  · rw [hparse] at h
    exact ⟨tree, p, rfl, h⟩

end JsMinify
