import JsMinify.Proofs.Parser.Strip
import JsMinify.Proofs.Node.Words

/-!
# Trees that can be read back

Where a node does not show the parentheses that it stood in, its words may mean something else than before. An
expression is `Node.tight` if no operator around it can take a part of it away. A comma is not: it is bare if its
parentheses are lost (`Node.isBare`), and may then stand in a few places only (`Kind.commaParts`). A node is
restorable if these places are kept, if a constructor does not end at the first call inside it, and if an
expression that is a statement does not begin as a block or a declaration does (`Node.leads`).
-/

namespace JsMinify

open Grammar (Level)

/-- The words begin as a block or the declaration of a function does. -/
def beginsStatement : List Word → Bool
  | (.lbrace, _) :: _ | (.kwFunction, _) :: (.identifier, _) :: _ => true
  | _ => false

theorem beginsStatement_append {ws : List Word} (h : beginsStatement ws) (us : List Word) : beginsStatement (ws ++ us) := by
  unfold beginsStatement at h
  split at h
  · rfl
  · rfl
  · cases h

/-- The numbers of the parts that may be a comma without parentheses around it. -/
def Kind.commaParts : Kind → List Nat
  | .ifStmt | .doWhile | .whileStmt | .withStmt | .returnStmt | .throwStmt | .switchStmt | .caseClause => [0]
  | .bracket | .forIn => [1]
  | .forStmt => [1, 2]
  | _ => []

/-- The level of expressions that the nodes of a kind belong to without parentheses around them, if no operator can
take a part of them away; given is whether they stood in parentheses, and the level of the first part. -/
def Kind.tight (parens : Bool) (first : Option Level) : Kind → Option Level
  | .comma => if parens then some .comma else none
  | .assign _ | .binary _ | .unary _ _ | .conditional => none
  | .call => some .call
  | .dot | .bracket => some (if first = some .call then .call else .member)
  | .newExpr | .function _ => some .member
  | _ => some .primary

/-- At the beginning of a statement a part with a number may not begin as a statement does either. -/
def Kind.leadsTo : Kind → Nat → Bool
  | .comma, i | .conditional, i | .assign _, i | .unary _ true, i | .call, i | .dot, i | .bracket, i => i == 0
  | .binary op, i => i == 0 || ["&", "^", "|", "&&", "||"].contains op
  | _, _ => false

/-- Nodes with an operator that others can take a part from. -/
def Kind.isLoose : Kind → Bool
  | .assign _ | .binary _ | .unary _ _ | .conditional => true
  | _ => false

namespace Node

variable (shows : Kind → Bool)

/-- A comma that stood in parentheses, which are not shown. -/
def isBare : Node → Bool
  | .node .comma m _ => m.parens && !shows .comma
  | _ => false

/-- The levels of tight expressions. -/
def tightness : Algebra (Option Level) where
  absent := none
  seq := fun _ => none
  node := fun k m parts =>
    if m.parens && shows k then some .primary else k.tight m.parens (Algebra.part none parts 0).value

/-- The level of expressions that the words of a tree belong to, if no operator can take a part of them away. -/
def tight (n : Node) : Option Level := n.fold (tightness shows)

theorem tight_node (k : Kind) (m : Mark) (parts : List Node) : (node k m parts).tight shows =
      if m.parens && shows k then some .primary else k.tight m.parens ((parts.getD 0 .absent).tight shows) := by
  have hpart : Algebra.part none (parts.map (asPart (tightness shows))) 0 =
      asPart (tightness shows) (parts.getD 0 .absent) := by
    cases parts <;> rfl
  rw [tight, fold_node]
  change (if m.parens && shows k then some .primary
    else k.tight m.parens (Algebra.part none (parts.map (asPart (tightness shows))) 0).value) = _
  rw [hpart]
  rfl

/-- Whether expressions may stand at the beginning of a statement. -/
def leading : Algebra Bool where
  absent := true
  seq := fun _ => true
  node := fun k m parts =>
    !beginsStatement ((node k m (parts.map (·.node))).words shows) &&
      (m.parens && shows k || parts.zipIdx.all fun x => !k.leadsTo x.2 || x.1.value)

/-- The expression may stand at the beginning of a statement. The parts that it begins with may not begin as a
statement does, and neither may the right sides of some operators. -/
def leads (n : Node) : Bool := n.fold (leading shows)

theorem leads_node (k : Kind) (m : Mark) (parts : List Node) :
    (node k m parts).leads shows = (!beginsStatement ((node k m parts).words shows) &&
      (m.parens && shows k || parts.zipIdx.all fun x => !k.leadsTo x.2 || x.1.leads shows)) := by
  simp only [leads, fold_node, leading, map_node_asPart, List.zipIdx_map, List.all_map]
  rfl

/-- The node itself can be read back, if its parts can. -/
def isRestorable : Node → Bool
  | .absent => true
  | .seq ns => ns.all (!·.isBare shows)
  | .node k _ parts =>
    parts.zipIdx.all (fun x => !x.1.isBare shows || k.commaParts.contains x.2) &&
      (!decide (k = .exprStmt) || (parts.getD 0 .absent).leads shows) &&
      (!decide (k = .newExpr) || (parts.getD 0 .absent).tight shows != some .call)

/-! ## Parts -/

section

variable {shows} {k : Kind} {m : Mark} {parts : List Node} {j : Nat}

theorem mem_commaParts (h : (node k m parts).isRestorable shows)
    (hj : (parts.getD j .absent).isBare shows) : j ∈ k.commaParts := by
  cases hx : parts[j]? with
  | none =>
    rw [List.getD_eq_getElem?_getD, hx] at hj
    cases hj
  | some x =>
    rw [List.getD_eq_getElem?_getD, hx] at hj
    rw [isRestorable, Bool.and_eq_true, Bool.and_eq_true, List.all_eq_true] at h
    have hpart := h.1.1 (x, j) (List.mk_mem_zipIdx_iff_getElem?.2 hx)
    rw [Option.getD_some] at hj
    simpa [hj] using hpart

theorem leads_first (h : (node .exprStmt m parts).isRestorable shows) : (parts.getD 0 .absent).leads shows := by
  rw [isRestorable, Bool.and_eq_true, Bool.and_eq_true] at h
  simpa using h.1.2

theorem tight_first (h : (node .newExpr m parts).isRestorable shows) : (parts.getD 0 .absent).tight shows ≠ some .call := by
  rw [isRestorable, Bool.and_eq_true] at h
  simpa using h.2

theorem leads_part (h : (node k m parts).leads shows) (hm : m.parens = false)
    (hj : k.leadsTo j) : (parts.getD j .absent).leads shows := by
  cases hx : parts[j]? with
  | none =>
    rw [List.getD_eq_getElem?_getD, hx]
    rfl
  | some x =>
    rw [leads_node, hm, Bool.false_and, Bool.false_or, Bool.and_eq_true, List.all_eq_true] at h
    have hpart := h.2 (x, j) (List.mk_mem_zipIdx_iff_getElem?.2 hx)
    rw [List.getD_eq_getElem?_getD, hx, Option.getD_some]
    simpa [hj] using hpart

theorem not_beginsStatement {n : Node} (h : n.leads shows) : beginsStatement (n.words shows) = false := by
  cases n with
  | absent => rfl
  | seq ns => rfl
  | node k m parts =>
    rw [leads_node, Bool.and_eq_true, Bool.not_eq_true'] at h
    exact h.1

end

/-! ## Marks -/

variable {shows}

theorem isBare_modifyMark {f : Mark → Mark} (hf : ∀ m, (f m).parens = m.parens) (n : Node) :
    (n.modifyMark f).isBare shows = n.isBare shows := by
  cases n with
  | node k m parts =>
    cases k with
    | comma => simp only [modifyMark, isBare, hf]
    | _ => rfl
  | _ => rfl

theorem every_modifyMark (f : Mark → Mark) (n : Node) :
    (n.modifyMark f).every (isRestorable shows) = n.every (isRestorable shows) := by
  cases n with
  | node k m parts =>
    rw [modifyMark, every_node, every_node]
    rfl
  | _ => rfl

theorem every_asCandidate (n : Node) :
    n.asCandidate.every (isRestorable shows) = n.every (isRestorable shows) := every_modifyMark _ n

theorem isBare_asCandidate (n : Node) : n.asCandidate.isBare shows = n.isBare shows :=
  isBare_modifyMark (f := fun m => { m with candidate := true }) (fun _ => rfl) n

/-- A tight expression is a comma exactly if this is bare. -/
theorem tight_eq_comma_iff (n : Node) : n.tight shows = some .comma ↔ n.isBare shows := by
  cases n with
  | absent | seq ns => simp [tight, fold, tightness, isBare]
  | node k m parts =>
    rw [tight_node]
    cases k with
    | comma => cases hm : m.parens <;> cases hs : shows .comma <;> simp [isBare, Kind.tight, hm, hs]
    | dot | bracket =>
      simp only [isBare, Kind.tight]
      split
      · simp
      · split <;> simp
    | _ =>
      simp only [isBare, Kind.tight]
      split <;> simp

/-! ## Parentheses -/

section

variable (k : Kind) (m : Mark) (parts : List Node)

theorem words_inParens :
    (node k m parts).inParens.words shows = parensIf (shows k && !m.parens) ((node k m parts).words shows) := by
  rw [inParens, modifyMark, words_node, words_node]
  cases shows k <;> cases m.parens <;> rfl

theorem strip_inParens_eq (h : (shows k && !m.parens) = false) :
    (node k m parts).inParens.strip shows = (node k m parts).strip shows := by
  rw [inParens, modifyMark, strip_node, strip_node]
  congr 1
  cases hk : shows k <;> cases hm : m.parens <;> simp_all [stripMark]

/-- An expression in parentheses is as tight as before if these are not shown, unless it is a comma. -/
theorem tight_inParens : (node k m parts).inParens.tight shows =
      if shows k then some .primary else if k = .comma then some .comma else (node k m parts).tight shows := by
  rw [inParens, modifyMark, tight_node, tight_node]
  cases hk : shows k with
  | true => rfl
  | false =>
    cases k with
    | comma => rfl
    | _ => simp [Kind.tight]

end

end Node

end JsMinify
