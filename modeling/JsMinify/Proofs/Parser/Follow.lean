import JsMinify.Proofs.Parser.Items
import JsMinify.Proofs.Parser.Step

/-!
# What may follow

`Table.outlook` is the set of what may follow a rule of which some symbols are recognised in a state: the kinds of
tokens, and the end of the text, before which the automaton reduces it once it has recognised the other symbols too.
`Table.keeping` checks that the automaton never loses a rule: before a symbol of a rule it goes to a state in which the
rule is under way with one symbol more, and before a nonterminal all its rules may begin and be followed by what may
come after it.

A few choices of the automaton are excepted. A rule is `contested` before a token that is shifted instead: an `if`
goes on with `else`, and a comparison that ends before `in` goes on with `in`. Some rules are `shunned` where
another way to read the same tokens is preferred: a function with a name at the start of a statement is a
declaration, and a declaration among the elements of a program is not taken for a statement.
-/

namespace JsMinify

open List

variable {a : Option TokenKind} {m : Nat} {rest : List Grammar.Sym} {A : Grammar.Nonterminal} {k : TokenKind}

/-- The kinds of tokens, in the order of their constructors. -/
def TokenKind.all : List TokenKind :=
  [.period, .comma, .semi, .colon, .plus, .minus, .times, .divide, .modulo, .bitAnd, .bitOr, .bitXor, .bitNot,
    .question, .bang, .lparen, .rparen, .lbrace, .rbrace, .lbracket, .rbracket, .assign, .equal, .notEqual, .same,
    .notSame, .less, .greater, .lessEq, .greaterEq, .orElse, .andThen, .plusPlus, .minusMinus, .shiftLeft,
    .shiftRight, .shiftZero, .plusAssign, .minusAssign, .timesAssign, .divideAssign, .shiftLeftAssign,
    .shiftRightAssign, .shiftZeroAssign, .bitAndAssign, .moduloAssign, .bitXorAssign, .bitOrAssign, .number, .string,
    .identifier, .regex, .getProp, .setProp, .lineComment, .blockComment, .lineEnd, .kwBreak, .kwCase, .kwCatch,
    .kwContinue, .kwDebugger, .kwDefault, .kwDelete, .kwDo, .kwElse, .kwFinally, .kwFor, .kwFunction, .kwIf, .kwIn,
    .kwInstanceof, .kwNew, .kwReturn, .kwSwitch, .kwThis, .kwThrow, .kwTry, .kwTypeof, .kwVar, .kwVoid, .kwWhile,
    .kwWith, .kwNull, .kwTrue, .kwFalse, .kwClass, .kwConst, .kwEnum, .kwExport, .kwExtends, .kwImport, .kwSuper]

namespace Grammar

/-- The bit that stands for a kind of tokens, or for the end of the text, in a set of them. -/
def aheadBit : Option TokenKind → Nat
  | none => 0
  | some k => k.ctorIdx + 1

/-- One set of bits is part of another. -/
def subset (m n : Nat) : Bool := (m &&& n) == m

/-- The item of a table in blocks. -/
def inBlocks {α : Type} (default : α) (size : Nat) (blocks : List (List α)) (i : Nat) : α :=
  (blocks.getD (i / size) []).getD (i % size) default

/-- The sets of tokens that expressions may begin with, first those with a sign of an operation before them. -/
def Level.begins (l : Level) : Nat :=
  if l.ctorIdx ≤ Level.unary.ctorIdx then 0x729221001e00060015a060
  else if l.ctorIdx < Level.primary.ctorIdx then 0x701220001e000000150000 else 0x701000001e000000150000

/-- For each nonterminal other than expressions the set of tokens that it may begin with. -/
def beginBlocks : List (List Nat) := [
  [0x8000000000000,0x8000000000000,0,0x8000000000000,0x8000000000000,0,0x400000,0x400000],
  [0,0x729221001e00060015a060,0x729221001e00060015a060,0,0,0,0x7ffe73641e00060015a068,0x7ffe73641e00060015a068],
  [0x7ffe73641e00060015a068,0x7ffe73641e00060015a068,0x7ffe73641e00060015a068,0x40000,
    0x7000000016000000000000,0x6000000000000000000000,0x1000000000000000000000,0x2000000000000],
  [0x4000000000000,0x10000000000000,0x8000000000000,0x100000,0x729221001e00060015a064,4,4,0x40000],
  [0x6e000000000000,0x6e000000000000,0xe000000000000,0x10000,0x729221001e00060015a060,
    0x28001000000060000a060,0x1ffc000400000,0x100000000000000000000],
  [0,0,0,8,0x729221001e00060011a060,0x400000000000000000,0x400120000000000000000,0],
  [0x2000000000000000,0x400000000000000,0x4000000000000000000,0x800000000000000000000,
    0x8000000000000000000,0x40000,0x800000000000000,0x800000000000000],
  [0x800000000000000,0x8000000000000000,0x8000000000000,0x20000000000000000000,0x40000000000000000000,
    0x1000000000000000,0x80000000000000000,0x4000000000000000],
  [0x200000000000000000,0x200000000000000000,0x8000000000000,0x7ffe73641e00060015a068]]

/-- The set of nonterminals that may have no tokens. -/
def nullables : Nat := 0x8004000002000e600000000000000000

def Nonterminal.begins : Nonterminal → Nat
  | .expr l .noBrace => l.begins ^^^ 1 <<< aheadBit (some .lbrace)
  | .expr l _ => l.begins
  | A => Table.force (inBlocks 0 8 beginBlocks) (A.bit - 60)

def Nonterminal.isNullable (A : Nonterminal) : Bool := nullables.testBit A.bit

/-- What symbols may begin with, where one of a set comes after them. -/
def begin : List Sym → Nat → Nat
  | [], m => m
  | .t k :: _, _ => 1 <<< (k.ctorIdx + 1)
  | .n A :: rest, m => A.begins ||| if A.isNullable then begin rest m else 0

/-- The rule does not stand everywhere where its left side may stand. -/
def Rule.isShunned : Rule → Bool
  | ⟨.statement, [.n .functionDecl], _⟩ | ⟨.functionExpr, _ :: .n .identifier :: _, _⟩ => true
  | _ => false

/-- The rule shuns some of the rules for its only symbol. -/
def Rule.isPicky : Rule → Bool
  | ⟨.sourceElement, [.n .statement], _⟩ | ⟨.expr .member .noBrace, [.n .functionExpr], _⟩ => true
  | _ => false

/-- The token before which the rule is not reduced, because it is shifted. -/
def Rule.contested : Rule → Option TokenKind
  | ⟨.ifStatement, [_, _, _, _, _], _⟩ => some .kwElse
  | ⟨.expr .equality .noIn, [_, _, _], _⟩ => some .kwIn
  | _ => none

namespace Table

/-- For each nonterminal the number of its first rule, and how many it has. -/
def ruleBlocks : List (List (Nat × Nat)) := [
  [(224,2),(226,2),(228,2),(206,2),(208,2),(210,2),(200,2),(202,2),(204,2),(194,2),
    (196,2),(198,2),(188,2),(190,2),(192,2),(182,2)],
  [(184,2),(186,2),(176,2),(178,2),(180,2),(170,2),(172,2),(174,2),(155,5),(160,5),
    (165,5),(135,7),(142,6),(148,7),(127,4),(0,0)],
  [(131,4),(121,3),(0,0),(124,3),(113,4),(0,0),(117,4),(100,2),(0,0),(102,2),(94,3),(0,0),(97,3),(90,2),(0,0),(92,2)],
  [(78,4),(0,0),(82,4),(74,2),(0,0),(76,2),(64,5),(0,0),(69,5),(37,2),(0,0),(39,5),(231,2),(233,2),(0,0),(235,2)],
  [(237,2),(0,0),(239,1),(240,1),(0,0),(252,2),(254,2),(0,0),(0,0),(0,1),(1,1),(2,2),(4,2),(6,2),(8,16),(24,1)],
  [(25,5),(30,2),(32,1),(33,1),(34,1),(35,1),(36,1),(44,3),(47,2),(49,2),(51,2),(53,3),(56,2),(58,3),(61,3),(86,2)],
  [(88,2),(104,9),(212,12),(230,1),(0,0),(0,0),(0,0),(241,1),(242,1),(243,2),(245,7),(0,0),(256,2),(258,2),(260,2),(262,1)],
  [(263,1),(264,2),(266,2),(268,2),(270,1),(271,1),(272,1),(273,1),(274,3),(277,1),
    (278,1),(279,1),(280,2),(282,4),(286,2),(288,1)]]

/-- The numbers of the rules for the nonterminal with a bit. -/
def rulesFor (b : Nat) : List Nat :=
  match inBlocks (0, 0) 16 ruleBlocks b with
  | (first, count) => .range' first count

/-- The set of some kinds of tokens, added to another. -/
def kindSet (ks : List TokenKind) (m : Nat) : Nat := ks.foldl (fun m k => m ||| 1 <<< (k.ctorIdx + 1)) m

/-- The tokens in a set of what may follow. -/
def allowed (la : Lookahead) : Nat := kindSet la.kinds (if la.atEnd then 1 else 0)

def shifted (q : State) : Nat := kindSet ((shifts q).map Prod.fst) 0

/-- The tokens in the set with a number. -/
def aheadSet (n : Nat) : Nat := allowed (lookaheads.getD n ⟨false, []⟩)

/-- What a rule is reduced before, among some reductions, but for what is taken already. -/
def reducedIn (i : Nat) : Nat → List (Nat × Nat) → Nat
  | _, [] => 0
  | taken, (n, j) :: rest =>
    if j = i then force aheadSet n &&& (force aheadSet n ^^^ taken) else reducedIn i (taken ||| force aheadSet n) rest

/-- The set of what a rule is reduced before in a state. -/
def reduced (q : State) (i : Nat) : Nat := reducedIn i (shifted q) (row q).2

/-- What a rule is reduced before, or contested by, when some symbols more are recognised. -/
def ends (i : Nat) (r : Rule) : List Sym → State → Nat
  | [], q => reduced q i ||| kindSet r.contested.toList 0
  | .t k :: rest, q => (((shifts q).lookup k).map (force (ends i r rest))).getD 0
  | .n A :: rest, q => force (ends i r rest) (goto q A)

/-- Different rules lead to the same state at different places. What may follow a rule where it begins is bounded by what may
follow an operand there, or an empty right side. -/
def bounded (q : State) : Rule → Nat → Nat
  | ⟨_, [.n .empty], _⟩, m => m &&& reduced q 0
  | ⟨.expr l v, _, _⟩, m =>
    if l.ctorIdx < Level.leftSide.ctorIdx && v != .noBrace then
      m &&& force (reduced · 94) (goto q (.expr .leftSide .plain)) else m
  | _, m => m

/-- The set that may follow a rule of which some symbols are recognised. -/
def outlook (q : State) (i : Nat) (r : Rule) : Nat → Nat
  | 0 => bounded q r (ends i r r.right q)
  | d + 1 => ends i r (r.right.drop (d + 1)) q

/-- The rule is under way in the state, or may begin there. -/
def isLive (q : State) (i : Nat) (r : Rule) : Nat → Bool
  | 0 => wants q r.left
  | d + 1 => (underWay q).contains (i, d + 1)

/-- The set that may follow a rule in a state, if it is under way there or may begin. -/
def expects (q : State) (i : Nat) (r : Rule) (d : Nat) : Nat := if isLive q i r d then outlook q i r d else 0

/-- The set that may follow a rule that begins in a state. -/
def opening (q : State) (i : Nat) : Nat := ((rule? i).map (outlook q i · 0)).getD 0

/-- All rules for the nonterminal with a bit may begin and be followed by a set, but those that are shunned. -/
def opens (q : State) (picky : Bool) (b m : Nat) : Bool :=
  (rulesFor b).all fun i => picky && (rule? i).any Rule.isShunned || subset m (force (opening q) i)

/-- A rule of which some symbols are recognised goes on: the state after its next symbol has it under way. -/
def goesOn (q : State) (i d : Nat) (r : Rule) : Bool :=
  match r.right.drop d with
  | [] => true
  | .t k :: _ => ((shifts q).lookup k).any fun p => (underWay p).contains (i, d + 1)
  | .n A :: rest =>
    wants q A && force (fun p => (underWay p).contains (i, d + 1)) (goto q A) &&
      force (fun m => force (fun b => opens q r.isPicky b m) A.bit) (begin rest (outlook q i r d))

/-- No rule that is under way or may begin in a state gets lost. -/
def keepsAll (q : State) : Bool :=
  ((underWay q).all fun (i, d) => (rule? i).any (goesOn q i d)) &&
    force (fun m => m == 0 || (List.range nonterminals.length).all fun b => !m.testBit b || (rulesFor b).all fun i =>
      (rule? i).any (goesOn q i 0)) (wanted q)

theorem keeping : ∀ q < stateCount, keepsAll q := by decide +kernel

end Table

end Grammar

/-! ## Sets of tokens -/

theorem TokenKind.all_ctorIdx (k : TokenKind) : TokenKind.all[k.ctorIdx]? = some k := by
  cases k <;> rfl

theorem TokenKind.ctorIdx_inj {l : TokenKind} (h : k.ctorIdx = l.ctorIdx) : k = l := by
  have hk := all_ctorIdx k
  rw [h, all_ctorIdx l] at hk
  exact (Option.some.inj hk).symm

namespace Grammar

theorem testBit_of_subset {n b : Nat} (h : subset m n) (hb : m.testBit b) : n.testBit b := by
  rw [← beq_iff_eq.1 h, Nat.testBit_and, Bool.and_eq_true] at hb
  exact hb.2

theorem testBit_one_shiftLeft (i b : Nat) : (1 <<< i).testBit b = decide (b = i) := by
  rw [Nat.testBit_shiftLeft, Bool.eq_iff_iff]
  simp only [ge_iff_le, Bool.and_eq_true, decide_eq_true_eq, Nat.testBit_one_eq_true_iff_self_eq_zero]
  omega

theorem aheadBit_inj {a' : Option TokenKind} (h : aheadBit a = aheadBit a') : a = a' := by
  cases a with
  | none =>
    cases a' with
    | none => rfl
    | some k => cases h
  | some k =>
    cases a' with
    | none => cases h
    | some l => rw [TokenKind.ctorIdx_inj (Nat.succ.inj h)]

theorem testBit_kind (k : TokenKind) (a : Option TokenKind) :
    (1 <<< (k.ctorIdx + 1)).testBit (aheadBit a) = decide (a = some k) := by
  rw [testBit_one_shiftLeft]
  exact decide_eq_decide.2 ⟨fun h => aheadBit_inj h, fun h => by rw [h]; rfl⟩

namespace Table

theorem testBit_kindSet (ks : List TokenKind) (m : Nat) (a : Option TokenKind) :
    (kindSet ks m).testBit (aheadBit a) = (m.testBit (aheadBit a) || ks.any fun k => decide (a = some k)) := by
  rw [kindSet, testBit_foldl fun k : TokenKind => 1 <<< (k.ctorIdx + 1)]
  simp only [testBit_kind]

theorem testBit_allowed (la : Lookahead) (a : Option TokenKind) : (allowed la).testBit (aheadBit a) = la.allows a := by
  rw [allowed, testBit_kindSet]
  cases a with
  | none => cases hend : la.atEnd <;> simp [Lookahead.allows, aheadBit, hend]
  | some k =>
    have hend : (if la.atEnd = true then 1 else 0 : Nat).testBit (aheadBit (some k)) = false := by
      cases la.atEnd
      · exact Nat.zero_testBit _
      · exact (testBit_one_shiftLeft 0 _).trans (decide_eq_false (Nat.succ_ne_zero _))
    rw [hend, Bool.false_or, Lookahead.allows, Bool.eq_iff_iff, any_eq_true, contains_iff_mem]
    simp

theorem lookup_of_shifted {q : State} (h : (shifted q).testBit (aheadBit a) = false) :
    (a.bind fun k => (shifts q).lookup k) = none := by
  rw [shifted, testBit_kindSet, Bool.or_eq_false_iff] at h
  cases a with
  | none => rfl
  | some k =>
    rw [Option.bind_some, lookup_eq_none_iff]
    intro e he
    have hother := any_eq_false.1 h.2 e.1 (mem_map_of_mem he)
    exact bne_iff_ne.2 fun hk => hother (decide_eq_true (congrArg some hk))

/-! ## What the check says -/

theorem testBit_reducedIn {i taken : Nat} {rs : List (Nat × Nat)} (h : (reducedIn i taken rs).testBit (aheadBit a)) :
    taken.testBit (aheadBit a) = false ∧
      ∃ la, (rs.map fun r => (lookaheads.getD r.1 ⟨false, []⟩, r.2)).find? (fun r => r.1.allows a) = some (la, i) := by
  induction rs generalizing taken with
  | nil => simp [reducedIn] at h
  | cons r rs ih =>
    obtain ⟨n, j⟩ := r
    have hset : (force aheadSet n).testBit (aheadBit a) = (lookaheads.getD n ⟨false, []⟩).allows a := by
      rw [force_eq, aheadSet, testBit_allowed]
    rw [reducedIn] at h
    rw [map_cons, find?_cons]
    split at h
    · next hj =>
      subst hj
      rw [Nat.testBit_and, Nat.testBit_xor, Bool.and_eq_true, hset] at h
      obtain ⟨hallows, hfree⟩ := h
      rw [hallows] at hfree ⊢
      exact ⟨by simpa using hfree, _, rfl⟩
    · obtain ⟨htaken, la, hla⟩ := ih h
      rw [Nat.testBit_or, hset, Bool.or_eq_false_iff] at htaken
      rw [htaken.2]
      exact ⟨htaken.1, la, hla⟩

theorem reductions_accept : reductions acceptState = [] := by decide +kernel

/-- A rule is reduced before the tokens of its set. -/
theorem move_of_reduced {q : State} {i : Nat} (h : (reduced q i).testBit (aheadBit a)) :
    forced? q = some i ∨ forced? q = none ∧ move q a = some (.reduce i) := by
  obtain ⟨hshifted, la, hfind⟩ := testBit_reducedIn h
  change (reductions q).find? _ = _ at hfind
  cases hforced : forced? q with
  | some j =>
    unfold forced? at hforced
    split at hforced
    · next la' j' _ hred =>
      rw [hred] at hfind
      have hmem := mem_singleton.1 (mem_of_find?_eq_some hfind)
      split at hforced
      · rw [(Prod.mk.inj hmem).2]
        exact .inl hforced.symm
      · cases hforced
    · cases hforced
  | none =>
    have hq : q ≠ acceptState := by
      rintro rfl
      rw [reductions_accept] at hfind
      cases hfind
    refine .inr ⟨rfl, ?_⟩
    unfold move
    rw [lookup_of_shifted hshifted]
    simp only [hq, decide_false, Bool.false_and, Bool.false_eq_true, if_false, hfind, Option.map_some]

theorem testBit_of_bounded {q : State} {r : Rule} {b : Nat} (h : (bounded q r m).testBit b) : m.testBit b := by
  unfold bounded at h
  split at h
  · rw [Nat.testBit_and, Bool.and_eq_true] at h
    exact h.1
  · split at h
    · rw [Nat.testBit_and, Bool.and_eq_true] at h
      exact h.1
    · exact h
  · exact h

theorem rules_numbered : ∀ i < rules.length, ∀ r ∈ rule? i, i ∈ rulesFor r.left.bit := by decide +kernel

theorem mem_rulesFor {i : Nat} {r : Rule} (h : rule? i = some r) : i ∈ rulesFor r.left.bit := by
  have hi : i < rules.length := by
    rw [rule?_eq] at h
    exact (List.getElem?_eq_some_iff.1 h).1
  exact rules_numbered i hi r h

/-! ## Rules go on -/

section Expects

variable {q : State} {i d : Nat} {r : Rule} {b : Nat}

theorem testBit_ends (h : (outlook q i r d).testBit b) : (ends i r (r.right.drop d) q).testBit b := by
  cases d with
  | zero => exact testBit_of_bounded h
  | succ d => exact h

theorem begin_mono {n : Nat} (hmn : ∀ b, m.testBit b → n.testBit b) (syms : List Sym) {b : Nat}
    (h : (begin syms m).testBit b) : (begin syms n).testBit b := by
  induction syms with
  | nil => exact hmn b h
  | cons s rest ih =>
    cases s with
    | t k => exact h
    | n A =>
      rw [begin, Nat.testBit_or, Bool.or_eq_true] at h ⊢
      refine h.imp_right fun h => ?_
      split at h
      · next hA =>
        rw [if_pos hA]
        exact ih h
      · simp at h

variable (hq : q < stateCount) (hr : rule? i = some r) (h : (expects q i r d).testBit b)

include hq hr h

theorem goesOn_of_expects : (outlook q i r d).testBit b ∧ goesOn q i d r := by
  rw [expects] at h
  split at h
  · next hlive =>
    refine ⟨h, ?_⟩
    have hkeeps := keeping q hq
    rw [keepsAll, Bool.and_eq_true, force_eq] at hkeeps
    cases d with
    | succ d => simpa [hr] using all_eq_true.1 hkeeps.1 _ (contains_iff_mem.1 hlive)
    | zero =>
      have hwanted : (wanted q).testBit r.left.bit := hlive
      have hbit : r.left.bit < nonterminals.length :=
        (List.getElem?_eq_some_iff.1 (nonterminals_bit r (mem_rules_of_rule? hr))).1
      rcases Bool.or_eq_true_iff.1 hkeeps.2 with hnone | hall
      · rw [beq_iff_eq.1 hnone, Nat.zero_testBit] at hwanted
        cases hwanted
      · have hrules := all_eq_true.1 hall _ (mem_range.2 hbit)
        rw [hwanted, Bool.not_true, Bool.false_or] at hrules
        simpa [hr] using all_eq_true.1 hrules i (mem_rulesFor hr)
  · simp at h

/-- Before a token of a rule it is shifted. -/
theorem expects_shift (hd : r.right.drop d = .t k :: rest) :
    forced? q = none ∧ ∃ p, move q (some k) = some (.shift p) ∧ (expects p i r (d + 1)).testBit b := by
  obtain ⟨hm, hgoes⟩ := goesOn_of_expects hq hr h
  simp only [goesOn, hd, Option.any_eq_true] at hgoes
  obtain ⟨p, hp, hlive⟩ := hgoes
  refine ⟨?_, p, ?_, ?_⟩
  · unfold forced?
    split
    · next hshifts _ => simp [hshifts] at hp
    · rfl
  · unfold move
    rw [Option.bind_some, hp]
  · have hends := testBit_ends hm
    rw [hd, ends, hp, Option.map_some, Option.getD_some, force_eq] at hends
    rwa [expects, isLive, hlive, if_pos rfl, outlook, ← tail_drop, hd]

/-- After a nonterminal of a rule the rule is under way with one symbol more. -/
theorem expects_goto (hd : r.right.drop d = .n A :: rest) : (expects (goto q A) i r (d + 1)).testBit b := by
  obtain ⟨hm, hgoes⟩ := goesOn_of_expects hq hr h
  simp only [goesOn, hd, force_eq, Bool.and_eq_true] at hgoes
  have hends := testBit_ends hm
  rw [hd, ends, force_eq] at hends
  rwa [expects, isLive, hgoes.1.2, if_pos rfl, outlook, ← tail_drop, hd]

/-- Before a nonterminal of a rule all its rules may begin, but those that the rule shuns. -/
theorem expects_begin (hd : r.right.drop d = .n A :: rest) {j : Nat} {r' : Rule} (hj : rule? j = some r') (hleft : r'.left = A)
    (hkept : ¬ (r.isPicky ∧ r'.isShunned)) {b' : Nat} (hb : (begin rest (1 <<< b)).testBit b') :
    (expects q j r' 0).testBit b' := by
  obtain ⟨hm, hgoes⟩ := goesOn_of_expects hq hr h
  simp only [goesOn, hd, force_eq, Bool.and_eq_true] at hgoes
  have hopens := all_eq_true.1 hgoes.2 j (hleft ▸ mem_rulesFor hj)
  rw [hj, Option.any_some, Bool.or_eq_true, Bool.and_eq_true, or_iff_right hkept, force_eq, opening, hj] at hopens
  rw [expects, isLive, hleft, hgoes.1.1, if_pos rfl]
  refine testBit_of_subset hopens (begin_mono (fun c hc => ?_) rest hb)
  rw [testBit_one_shiftLeft, decide_eq_true_eq] at hc
  rwa [hc]

omit h in
/-- A rule whose symbols are all recognised is reduced before what may follow it, unless that is contested. -/
theorem expects_reduce (h : (expects q i r d).testBit (aheadBit a))
    (hd : r.right.drop d = []) (hfree : ∀ k, r.contested = some k → a ≠ some k) :
    forced? q = some i ∨ forced? q = none ∧ move q a = some (.reduce i) := by
  have hends := testBit_ends (goesOn_of_expects hq hr h).1
  rw [hd, ends, Nat.testBit_or, testBit_kindSet, Nat.zero_testBit, Bool.false_or, Bool.or_eq_true] at hends
  rcases hends with hends | hcontested
  · exact move_of_reduced hends
  · obtain ⟨k, hk, hak⟩ := any_eq_true.1 hcontested
    exact absurd (of_decide_eq_true hak) (hfree k (Option.mem_toList.1 hk))

end Expects

end Table

end Grammar

end JsMinify
