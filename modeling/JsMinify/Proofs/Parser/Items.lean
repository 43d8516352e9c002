import JsMinify.Grammar.Automaton

/-!
# Rules under way

In each state of the automaton some rules are under way: a rule with the number of symbols of its right
side that stand on the stack. `Table.underWay` lists them and `Table.wants` says which nonterminals may
be recognised next. `Table.valid` checks both against the tables, edge by edge.
-/

namespace JsMinify.Grammar

open List

variable {p q : State} {i : Nat} {x : Sym}

/-- The bit that stands for a nonterminal in a set of them. -/
def Nonterminal.bit : Nonterminal → Nat
  | .expr l v => 3 * l.ctorIdx + v.ctorIdx
  | .varDeclList v => 60 + v.ctorIdx
  | .varDecl v => 63 + v.ctorIdx
  | .initializer v => 66 + v.ctorIdx
  | .exprOpt v => 69 + v.ctorIdx
  | A => 72 + A.ctorIdx

def Level.all : List Level :=
  [.comma, .assignment, .conditional, .logicalOr, .logicalAnd, .bitOr, .bitXor, .bitAnd, .equality,
    .relational, .shift, .additive, .multiplicative, .unary, .update, .leftSide, .call, .creation,
    .member, .primary]

def Variant.all : List Variant := [.plain, .noIn, .noBrace]

/-- The nonterminals other than expressions, in the order of their constructors. A place where the
constructor has variants is filled by one of them. -/
def otherNonterminals : List Nonterminal := [
    .expr .comma .plain, .empty, .program, .sourceElements, .sourceElementList, .sourceElement,
    .statement, .block, .literal, .booleanLiteral, .nullLiteral, .numericLiteral,
    .stringLiteral, .regexLiteral, .identifier, .arrayLiteral, .elementList, .elisionOpt,
    .elision, .objectLiteral, .propertyList, .property, .propertyName, .arguments,
    .argumentList, .unaryCommon, .assignmentOperator, .varStatement, .varDeclList .plain,
    .varDecl .plain, .initializer .plain, .emptyStatement, .exprStatement, .ifStatement,
    .iteration, .exprOpt .plain, .continueStatement, .breakStatement, .returnStatement,
    .withStatement, .switchStatement, .caseBlock, .caseClausesOpt, .caseClauses, .caseClause,
    .defaultClause, .labelled, .throwStatement, .tryStatement, .catchClause, .finallyClause,
    .debuggerStatement, .functionDecl, .functionExpr, .parameters, .functionBody]

/-- The nonterminals, in the order of their bits. -/
def nonterminals : List Nonterminal :=
  (Level.all.flatMap fun l => Variant.all.map (.expr l)).append
    ((Variant.all.map .varDeclList).append ((Variant.all.map .varDecl).append
      ((Variant.all.map .initializer).append ((Variant.all.map .exprOpt).append otherNonterminals))))

/-- For each variant of expressions the set of nonterminals that may begin one. -/
def Variant.corners : Variant → Nat
  | .plain => 0x2000000208ff00000a49249249249249
  | .noIn => 0x2000000208ff00000a49249252492492
  | .noBrace => 0x2000000200ff00000924924924924924

/-- For some nonterminals other than expressions the set of those that may begin them. -/
def cornerSets : List (Nonterminal × Nat) := [
  (.varDeclList .plain, 0x4000009000000000000000), (.varDeclList .noIn, 0x4000012000000000000000),
  (.varDecl .plain, 0x4000008000000000000000), (.varDecl .noIn, 0x4000010000000000000000),
  (.exprOpt .plain, 0x2000000208ff02200a49249249249249), (.exprOpt .noIn, 0x2000000208ff02400a49249252492492),
  (.program, 0x39c1f78a00fffe000924924924924924), (.sourceElements, 0x39c1f78a00fffa000924924924924924),
  (.sourceElement, 0x39c1f78a00ffe0000924924924924924), (.statement, 0x39c1f78a00ffc0000924924924924924),
  (.elementList, 0x70002000000000000000000), (.elisionOpt, 0x60002000000000000000000),
  (.propertyList, 0x705800000000000000000000), (.property, 0x605800000000000000000000),
  (.propertyName, 0x405800000000000000000000), (.argumentList, 0x2000000308ff00000a49249249249248),
  (.caseClausesOpt, 0x1c0000000002000000000000000000), (.parameters, 0x40000000004000000000000000000000),
  (.functionBody, 0xb9c1f78a00fffa000924924924924924)]

/-- The set of nonterminals that may begin a nonterminal, itself included. An expression begins with one that binds no
less, and it begins with the sign of an operation only down to the unary level. -/
def Nonterminal.corners : Nonterminal → Nat
  | .expr l v =>
    let all := if l.ctorIdx ≤ Level.unary.ctorIdx then v.corners else v.corners ^^^ 1 <<< unaryCommon.bit
    all >>> (expr l v).bit <<< (expr l v).bit
  | A => (cornerSets.lookup A).getD (1 <<< A.bit)

namespace Table

def stateCount : Nat := 536

/-- For each state the rules under way that it does not reduce by: a rule `i` of which `d` symbols are recognised is written
`1000 * d + i`, and a small number after it stands for as many further rules. The states stand in blocks of sixteen. -/
def underWayBlocks : List (List (List Nat)) := [
  [[],[1111],[1258,1],[1256,1],[1279],[1104],[1245],[],[1247,4],[1280,5],[],[1243,1],[1024],[1044,2],[1043],[1110]],
  [[1108],[1073,1077],[1112],[],[],[1109],[1107],[],[1260,1],[],[],[1263],[],[1273],[],[1274,2]],
  [[1106],[1230],[1105],[1246],[1262],[1125,1],[],[],[1175],[1187],[1181],[],[],[],[1083,2],[]],
  [[],[],[],[],[1166,3],[1229,1242],[],[1023],[],[1272],[],[],[],[1098,1,1211],[],[1193]],
  [[1199,1205],[1071,1,1082],[1118,2],[],[],[],[],[],[],[],[1149,5],[],[1132,2],[],[1005],[]],
  [[],[],[],[],[],[],[],[],[],[1282,3],[1053,2],[1068,1075],[1079,2],[],[],[1095,1]],
  [[1066,1,1078],[],[],[],[],[],[],[],[],[2259],[],[2257],[],[],[],[2245]],
  [[2247,4],[2282,1],[2280,1,2284,1],[2243,1],[2024],[],[1048,2045,1],[1052],[1047,2044],[],[1122,1],[],[1171],[1183],
    [1177],[]],
  [[1156,3],[1225,2043],[1095,1,1207],[1189],[1195,1201],[1114,2],[1136,5],[1128,2],[],[],[],[1066,1,2073],[],[],[],[]],
  [[],[1225,2261],[2263],[1225,2273],[2274,2],[],[1236],[],[1232,2230],[],[2246],[2262],[2126],[2125],[2175],[2187]],
  [[2181],[2084],[1086,1],[2085],[],[2166],[2167],[2168],[2169],[2229],[],[2272],[],[],[],[]],
  [[],[],[],[],[],[],[],[],[],[],[2211],[2193],[2205],[2199],[2071],[2072]],
  [[],[2119],[2120],[2118],[2152],[2150],[2154],[2153],[2151],[2149],[2132],[2133],[2134],[],[2284,1],[1059]],
  [[],[1060],[],[],[],[1057,2054,1],[1058],[],[1066,1,2068],[],[2080],[2081],[],[],[],[2066]],
  [[2067],[],[],[],[3245],[3248,3250,1],[],[1173],[1185],[1179],[],[],[1161,3],[1227],[3247],[1095,1,1209,3249]],
  [[1191],[1197,1203],[1143,4],[1128,2],[3282],[1287,3283],[],[3280,1,3284,1],[1225,3243,1],[],[2048,3046],[],[],[],[],[2123]],
  [[2122],[2171],[2183],[2177],[2156],[2157],[2158],[2159],[2225],[],[2207],[2189],[2201],[2195],[2115],[2116]],
  [[2114],[2139],[2137],[2141],[2140],[2138],[2136],[2128],[2129],[2130],[],[],[1225,3263],[],[1277],[1278]],
  [[3276],[],[1239],[],[2232],[],[1225,3246],[1225,3262],[1114,2],[1114,2],[1166,3],[1098,1],[1181],[1175],[1225,3084],[]],
  [[1089,2087],[],[],[1136,5],[1136,5],[1136,5],[1136,5],[],[],[],[1187],[3205],[1193],[1225,3071],[],[]],
  [[],[],[1128,2],[1128,2],[1128,2],[1128,2],[1128,2],[1128,2],[1122,1],[1122,1],[1122,1],[3284,1],[2059],[2060],
    [2057,3055],[]],
  [[2058],[],[1225,3080],[],[1225,3066],[],[4245],[1238,4250,1],[1234,4248],[],[2173],[2185],[2179],[2161],[2162],[2163]],
  [[2164],[2227],[4247],[4249],[2209],[2191],[2203],[2197],[2146],[2144],[2147],[2145],[2143],[4282],[2287],[4283]],
  [[4280,4284],[1287,4281,4285],[4243,1],[3048,4046],[1114,2],[1114,2],[1156,3],[1177],[1171],[1136,5],[1136,5],
    [1136,5],[1136,5],[],[],[1183]],
  [[3201],[1189],[],[],[],[1128,2],[1128,2],[1128,2],[1128,2],[1128,2],[1128,2],[1122,1],[1122,1],[1122,1],[4263],[2277]],
  [[],[],[],[],[4246],[4262],[],[2089],[],[4205],[],[4284],[1287,4285],[3059],[3060],[]],
  [[],[],[],[],[1225,5245],[1240],[5250],[5251],[2234],[5248],[1161,3],[1179],[1173],[1136,5],[1136,5],[1136,5]],
  [[1136,5],[],[1095,1,1209],[],[1225],[5247],[1225,5249],[],[1185],[3203],[1191],[1128,2],[1128,2],[1128,2],[1128,2],
    [1128,2]],
  [[5282],[],[],[5283],[5280,5284],[5281,5285],[5244],[],[],[4201],[1264,1],[],[3277],[],[],[]],
  [[],[5284],[5285],[4059],[1287,4060],[6245],[],[1225,6250],[6251],[1238],[],[6248],[6247],[6249],[4203],[]],
  [[6283],[6280,6284],[6281,6285],[6244],[],[1270],[],[1269],[2264,1],[],[4277],[6284],[6285],[5059],[5060],[]],
  [[7250],[1225,7251],[],[7248],[7247],[],[],[],[],[7281,7285],[],[1225,2270],[],[1271],[],[3265]],
  [[],[],[7285],[6059],[6060],[],[8251],[8248],[8247],[],[3270],[2271],[4265],[],[],[7060]],
  [[],[9248],[],[],[],[],[],[]]]

/-- Numbers of rules, with those that follow the ones before a small number written out. -/
def writtenOut : Nat → List Nat → List Nat
  | _, [] => []
  | last, n :: ns => if n < 1000 then .append (.range' (last + 1) n) (writtenOut last ns) else n :: writtenOut n ns

/-- A rule with symbols, all of which are recognised. -/
def whole (i : Nat) : Option (Nat × Nat) :=
  (rule? i).bind fun r => if r.right.isEmpty then none else some (i, r.right.length)

/-- The rules under way in a state, with the number of symbols recognised. -/
def underWay (s : State) : List (Nat × Nat) :=
  ((writtenOut 0 ((underWayBlocks.getD (s / 16) []).getD (s % 16) [])).map fun n => (n % 1000, n / 1000)).append
    ((row s).2.filterMap fun e => whole e.2)

/-- The set of nonterminals that may begin what a rule under way goes on with. -/
def wantedBy : Nat × Nat → Nat
  | (i, d) =>
    match (rule? i).bind fun r => r.right[d]? with
    | some (.n A) => A.corners
    | _ => 0

/-- The set of nonterminals that may be recognised next in a state. -/
def wanted (s : State) : Nat :=
  if s = 0 then Nonterminal.program.corners else (underWay s).foldl (fun m e => m ||| wantedBy e) 0

/-- A nonterminal may be recognised next in a state. -/
def wants (s : State) (A : Nonterminal) : Bool := (wanted s).testBit A.bit

/-- The symbol recognised last of a rule under way. -/
def symbolBefore : Nat × Nat → Option Sym
  | (i, d) => (rule? i).bind fun r => r.right[d - 1]?

/-- The symbol that leads into a state. -/
def entry (p : State) : Option Sym :=
  if p = acceptState then some (.n .program) else (underWay p).head?.bind symbolBefore

/-- The left side of a rule, as a set. -/
def leftOf (i : Nat) : Nat := ((rule? i).map fun r => 1 <<< r.left.bit).getD 0

/-- The set of left sides of the rules that began with the symbol that led into a state. -/
def begun (p : State) : Nat :=
  ((underWay p).filter fun e => e.2 = 1).foldl (fun m (i, _) => m ||| leftOf i) 0

/-- The rules that were under way already before the symbol that led into a state. -/
def goneOn (p : State) : List (Nat × Nat) :=
  ((underWay p).filter fun e => 1 < e.2).map fun e => (e.1, e.2 - 1)

/-- The symbol `x` may lead from one state to another: what is under way afterwards was so before, or
could begin. -/
def edge (q : State) (x : Sym) (p : State) : Bool :=
  decide (p < stateCount) && decide (entry p = some x) && (begun p &&& wanted q) == begun p &&
    (goneOn p).all (underWay q).contains

/-- All rules under way in a state have the same symbol recognised last. -/
def agrees (p : State) : Bool := (underWay p).all fun e => 0 < e.2 && symbolBefore e = entry p

/-- The rule is under way in the state, with all its symbols recognised. -/
def complete (q : State) (i : Nat) : Bool :=
  match rule? i with
  | none => false
  | some r => if r.right = [] then wants q r.left else (underWay q).contains (i, r.right.length)

/-- A function applied to a number that is worked out first. -/
def force {α : Type} (f : Nat → α) : Nat → α
  | 0 => f 0
  | n + 1 => f (n + 1)

/-- After the nonterminals of a set, the usual state is right unless there is an exception. -/
def usualFrom (q : State) : Nat → List Nonterminal → Bool
  | _, [] => true
  | m, A :: As =>
    (m % 2 == 0 || edge q (.n A) (gotos A).1 || ((gotos A).2.lookup q).isSome) &&
      (m / 2 == 0 || force (fun m => usualFrom q m As) (m / 2))

/-- The tables agree with the rules under way in a state. -/
def validAt (q : State) : Bool :=
  agrees q && force (fun i => (shiftLists.getD i []).all fun (k, p) => edge q (.t k) p) (row q).1 &&
    ((row q).2.all fun (_, i) => complete q i) && usualFrom q (wanted q) nonterminals

/-- The exceptions among the states to go to agree with the rules under way. -/
def validExceptions (A : Nonterminal) : Bool :=
  (gotos A).2.all fun (q, p) => !wants q A || edge q (.n A) p

theorem valid : (∀ q < stateCount, validAt q) ∧ ∀ A ∈ nonterminals, validExceptions A := by decide +kernel

theorem nonterminals_bit : ∀ r ∈ rules, nonterminals[r.left.bit]? = some r.left := by decide +kernel

/-! ## What the check says -/

variable {α : Type}

theorem force_eq (f : Nat → α) (n : Nat) : force f n = f n := by
  cases n <;> rfl

variable {r : Rule}

theorem agrees_of_lt (hp : p < stateCount) : agrees p := by
  have h := valid.1 p hp
  simp only [validAt, Bool.and_eq_true] at h
  exact h.1.1.1

theorem edge_of_shift {k : TokenKind} (hq : q < stateCount) (h : (k, p) ∈ shifts q) : edge q (.t k) p := by
  have hv := valid.1 q hq
  simp only [validAt, Bool.and_eq_true, force_eq] at hv
  exact all_eq_true.1 hv.1.1.2 (k, p) h

theorem complete_of_reduction {la : Lookahead} (hq : q < stateCount) (h : (la, i) ∈ reductions q) : complete q i := by
  have hv := valid.1 q hq
  simp only [validAt, Bool.and_eq_true] at hv
  obtain ⟨e, he, heq⟩ := mem_map.1 h
  obtain ⟨-, rfl⟩ := Prod.mk.inj heq
  exact all_eq_true.1 hv.1.2 e he

theorem usualFrom_spec {As : List Nonterminal} {m j : Nat} {A : Nonterminal} (h : usualFrom q m As)
    (hj : As[j]? = some A) (hm : m.testBit j) : edge q (.n A) (gotos A).1 ∨ ((gotos A).2.lookup q).isSome := by
  induction As generalizing m j with
  | nil => simp at hj
  | cons B As ih =>
    simp only [usualFrom, Bool.and_eq_true, Bool.or_eq_true, beq_iff_eq, force_eq] at h
    cases j with
    | zero =>
      obtain rfl : B = A := by simpa using hj
      have hodd : m % 2 = 1 := by simpa [Nat.testBit_zero] using hm
      rcases h.1 with (h0 | he) | hs
      · omega
      · exact .inl he
      · exact .inr hs
    | succ j =>
      rw [Nat.testBit_succ] at hm
      rcases h.2 with h0 | hrest
      · rw [h0, Nat.zero_testBit] at hm
        cases hm
      · exact ih hrest (by simpa using hj) hm

/-- What the tables say about a nonterminal that may be recognised is right. -/
theorem edge_of_goto (hq : q < stateCount) (hr : r ∈ rules) (hw : wants q r.left) : edge q (.n r.left) (goto q r.left) := by
  have hbit := nonterminals_bit r hr
  unfold goto
  cases hl : (gotos r.left).2.lookup q with
  | none =>
    have hv := valid.1 q hq
    simp only [validAt, Bool.and_eq_true] at hv
    rcases usualFrom_spec hv.2 hbit hw with he | hs
    · exact he
    · rw [hl] at hs
      cases hs
  | some p =>
    have hx := valid.2 _ (mem_of_getElem? hbit)
    obtain ⟨l₁, l₂, hs, -⟩ := List.lookup_eq_some_iff.1 hl
    have hmem : (q, p) ∈ (gotos r.left).2 := by
      rw [hs]
      simp
    have := all_eq_true.1 hx (q, p) hmem
    simpa [hw] using this

theorem testBit_foldl (f : α → Nat) (l : List α) (m b : Nat) :
    (l.foldl (fun m e => m ||| f e) m).testBit b = (m.testBit b || l.any fun e => (f e).testBit b) := by
  induction l generalizing m with
  | nil => simp
  | cons e l ih => simp [ih, Bool.or_assoc]

theorem edge_lt (h : edge q x p) : p < stateCount := by
  simp only [edge, Bool.and_eq_true, decide_eq_true_eq] at h
  exact h.1.1.1

theorem edge_entry (h : edge q x p) : entry p = some x := by
  simp only [edge, Bool.and_eq_true, decide_eq_true_eq] at h
  exact h.1.1.2

/-- A rule that is under way after an edge either began with the symbol of the edge, or went on with it. -/
theorem edge_underWay {d : Nat} (h : edge q x p) (hi : (i, d) ∈ underWay p) :
    ∃ r c, d = c + 1 ∧ rule? i = some r ∧ r.right[c]? = some x ∧ (c = 0 → wants q r.left) ∧ (0 < c → (i, c) ∈ underWay q) := by
  have hagree := all_eq_true.1 (agrees_of_lt (edge_lt h)) (i, d) hi
  simp only [Bool.and_eq_true, decide_eq_true_eq, edge_entry h, symbolBefore] at hagree
  obtain ⟨hd, hsym⟩ := hagree
  obtain ⟨c, rfl⟩ : ∃ c, d = c + 1 := ⟨d - 1, by omega⟩
  obtain ⟨r, hr, hx⟩ := Option.bind_eq_some_iff.1 hsym
  simp only [edge, Bool.and_eq_true, beq_iff_eq] at h
  refine ⟨r, c, rfl, hr, hx, fun hc => ?_, fun hc => ?_⟩
  · subst hc
    have hbegun : (begun p).testBit r.left.bit := by
      rw [begun, testBit_foldl, Bool.or_eq_true, any_eq_true]
      refine .inr ⟨(i, 1), mem_filter.2 ⟨hi, rfl⟩, ?_⟩
      simp [leftOf, hr]
    rw [← h.1.2, Nat.testBit_and, Bool.and_eq_true] at hbegun
    exact hbegun.2
  · have hon : (i, c) ∈ goneOn p := by
      refine mem_map.2 ⟨(i, c + 1), mem_filter.2 ⟨hi, ?_⟩, rfl⟩
      simpa using hc
    exact contains_iff_mem.1 (all_eq_true.1 h.2 _ hon)

theorem complete_cases (h : complete q i) : ∃ r, rule? i = some r ∧ (r.right = [] → wants q r.left) ∧
      (r.right ≠ [] → (i, r.right.length) ∈ underWay q) := by
  unfold complete at h
  split at h
  · cases h
  · next r hr =>
    refine ⟨r, hr, fun he => ?_, fun hne => ?_⟩
    · rwa [if_pos he] at h
    · rw [if_neg hne] at h
      exact contains_iff_mem.1 h

end Table

end JsMinify.Grammar
