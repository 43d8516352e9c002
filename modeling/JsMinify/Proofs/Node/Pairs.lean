import JsMinify.Proofs.Node.Composing

/-!
# The `else` branches inside a tree

The braces of a block of one statement are not printed, so an `if` inside it stays open for an `else` that is
printed later. `Node.openIfs` says which `if`s a statement leaves open, and `Node.partner?` which of them takes
the `else` of an `if`. Here the parts of a tree are shown to be read accordingly that leave what is open alone
(`quiet_node`), and each `else` is found in the text of the whole tree (`hasElse_of_at?`).
-/

namespace JsMinify

open List Spell Node

variable {P : ElsePair → Prop} {k : Kind} {m : Mark} {parts ns : List Node} {n x : Node} {path w : Path} {i : Nat}
  {s t : Spelling} {ss : List Spelling} {test yes no : Node} {p : Place} {r : Role}

namespace Node

/-- The `if`s that are still open where the printed text of a statement ends, the latest first. The braces of a
block of one statement are not printed, except around the first branch of an `if` with an `else`. -/
def openIfs : Node → List Path
  | .node .block _ [s] => s.openIfs.map (0 :: ·)
  | .node .ifStmt _ [_, yes, .absent] => yes.openIfs.map (1 :: ·) ++ [[]]
  | .node .ifStmt _ [_, yes, no] =>
    no.openIfs.map (2 :: ·) ++ ((if yes.isSingleBlock then [] else yes.openIfs.map (1 :: ·)) ++ [[]]).tail
  | .node .whileStmt _ [_, body] | .node .withStmt _ [_, body] | .node .label _ [_, body] =>
    body.openIfs.map (1 :: ·)
  | .node .forIn _ [_, _, body] => body.openIfs.map (2 :: ·)
  | .node .forStmt _ [_, _, _, body] => body.openIfs.map (3 :: ·)
  | _ => []

/-- Of an `if` with an `else`, the way to the node whose `if` the printed `else` belongs to. -/
def partner? : Node → Option Path
  | .node .ifStmt _ [_, _, .absent] => none
  | .node .ifStmt _ [_, yes, _] =>
    some (((if yes.isSingleBlock then [] else yes.openIfs.map (1 :: ·)) ++ [[]]).headD [])
  | _ => none

end Node

theorem node_ifElse {m : Mark} (h : no.isAbsent = false) : Spell.node .ifStmt m ([test, yes, no].map (asPart algebra)) =
      .tok .kwIf "if" ++ (Spell.optional .empty 0 (asPart algebra test)).inParens ++
        (if yes.isSingleBlock then (yes.spell.under 1).branch else yes.spell.under 1) ++
        .afterWord (.tok .kwElse "else") (no.spell.under 2) :=
  if_neg (by simp [Algebra.part, h])

/-! ## What is read of a part in its place -/

/-- What reading the printed text of a node in some place changes. -/
def Place.Reads (P : ElsePair → Prop) (p : Place) (path : Path) (n : Node) : Prop :=
  match p with
  | .statement | .block => Stated P path n.spell n.openIfs
  | .program | .caseClause | .defaultClause => Listed P path n.spell
  | .catchClause | .finallyClause => Clause P path n.spell
  | _ => Quiet P path n.spell

/-- The parts of a node are as its kind asks for, and are read in their places. -/
abbrev PartsRead (P : ElsePair → Prop) (k : Kind) (parts : List Node) (path : Path) : Prop :=
  PartsHold (Place.Reads P) k parts path

theorem Place.Reads.composed (h : p.Reads P path n) : p.Composed (Quiet P) (Listed P) path n := by
  cases p with
  | statement | block => exact .of_stated h
  | catchClause | finallyClause => exact .of_quiet fun st => (h st).1
  | element => exact fun _ => h
  | _ => exact h

theorem joins_listed : Joins (Listed P) where
  congr := Listed.congr
  append := Listed.append
  under := Listed.under
  empty := .of_quiet .empty

/-- What leaves alone what is open makes up expressions that do. -/
theorem composes_quiet : Composes (Quiet P) (Listed P) where
  congr := Quiet.congr
  append := Quiet.append
  under := Quiet.under
  empty := Quiet.empty
  gap := .raw " "
  tok h := .tok (Bool.and_eq_true_iff.1 h).2 _
  divide _ h := Quiet.append (.tok rfl "/") h
  inParens := Quiet.inParens
  inBrackets := Quiet.inBrackets
  listed := joins_listed
  weaken := .of_quiet
  braced := Quiet.braced

theorem quiet_node (hk : k.isQuiet) (h : PartsRead P k parts path) :
    Quiet P path (Spell.node k m (parts.map (asPart algebra))) := by
  by_cases hhole : ∃ text, k = .elision text
  · obtain ⟨text, rfl⟩ := hhole
    exact .raw _
  · exact composes_quiet.node hk (fun text he => hhole ⟨text, he⟩) (h.mono Place.Reads.composed)

/-! ## Where an `else` is printed -/

/-- The text has an `else` that was printed for the node at the end of a path. -/
def Spelling.HasElse (s : Spelling) (path : Path) : Prop := ∃ p ∈ s.pieces, p.kind = some .kwElse ∧ p.owner = path

namespace Spelling

@[simp] theorem hasElse_append : (s ++ t).HasElse path ↔ s.HasElse path ∨ t.HasElse path := by
  simp only [HasElse, pieces_append, mem_append, or_and_right, exists_or]

variable {text : String}

@[simp] theorem hasElse_tok {k : TokenKind} : (tok k text).HasElse path ↔ k = .kwElse ∧ path = [] := by
  simp [HasElse, tok, eq_comm]

@[simp] theorem not_hasElse_raw : ¬(raw text).HasElse path := by simp [HasElse, raw]

@[simp] theorem not_hasElse_gap : ¬gap.HasElse path := not_hasElse_raw

@[simp] theorem not_hasElse_empty : ¬empty.HasElse path := by simp [HasElse, empty]

@[simp] theorem hasElse_mk {open' : Bool} : (⟨s.pieces, open'⟩ : Spelling).HasElse path ↔ s.HasElse path := .rfl

@[simp] theorem hasElse_ite {c : Prop} [Decidable c] :
    (if c then s else t).HasElse path ↔ if c then s.HasElse path else t.HasElse path := by split <;> rfl

@[simp] theorem hasElse_under {j : Nat} : (s.under i).HasElse (j :: path) ↔ i = j ∧ s.HasElse path := by
  simp [HasElse, under, Piece.under]
  tauto

@[simp] theorem hasElse_inParens : s.inParens.HasElse path ↔ s.HasElse path := by simp [inParens]

@[simp] theorem hasElse_braced : s.braced.HasElse path ↔ s.HasElse path := by simp [braced]

@[simp] theorem hasElse_parensIf : (s.parensIf m).HasElse path ↔ s.HasElse path := by
  unfold parensIf
  split <;> simp

@[simp] theorem hasElse_afterWord {word : Spelling} :
    (afterWord word s).HasElse path ↔ word.HasElse path ∨ s.HasElse path := by
  unfold afterWord
  split <;> simp

@[simp] theorem hasElse_bracedOnce : s.bracedOnce.HasElse path ↔ s.HasElse path := by
  unfold bracedOnce
  split <;> simp

@[simp] theorem hasElse_branch : s.branch.HasElse path ↔ s.HasElse path := by
  unfold branch
  split
  · exact hasElse_braced
  · rfl

theorem hasElse_join (sep : List Piece) (h : ∃ s ∈ ss, s.HasElse path) : (join sep ss).HasElse path := by
  obtain ⟨s, hs, p, hp, hk⟩ := h
  refine ⟨p, ?_, hk⟩
  unfold join
  induction ss with
  | nil => cases hs
  | cons u ss ih =>
    cases ss with
    | nil =>
      obtain rfl := mem_singleton.1 hs
      simpa using hp
    | cons v ss =>
      simp only [map_cons, intercalate_cons_cons, mem_append] at ih ⊢
      rcases mem_cons.1 hs with rfl | hs
      · exact .inl (.inl hp)
      · exact .inr (ih hs)

end Spelling

theorem hasElse_numbered (hx : ns[i]? = some x) (h : x.spell.HasElse path) (j : Nat) :
    ∃ s ∈ numbered j (ns.map spell), s.HasElse ((j + i) :: path) := by
  refine ⟨x.spell.under (j + i), mem_iff_getElem?.2 ⟨i, ?_⟩, by simpa using h⟩
  rw [getElem?_numbered, getElem?_map, hx]
  rfl

theorem hasElse_items (hx : ns[i]? = some x) (h : x.spell.HasElse path) (j : Nat) :
    ∃ s ∈ items j (asPart algebra (.seq ns)), s.HasElse (j :: i :: path) := by
  obtain ⟨s, hs, helse⟩ := hasElse_numbered hx h 0
  rw [Nat.zero_add] at helse
  refine ⟨s.under j, mem_map_of_mem ?_, by simpa using helse⟩
  simp only [asPart, Node.items, map_map]
  exact hs

theorem hasElse_arrayItems (hx : ns[i]? = some x) (h : x.spell.HasElse path) (j : Nat) :
    (arrayItems j (ns.map (asPart algebra))).HasElse ((j + i) :: path) := by
  induction ns generalizing i j with
  | nil => cases hx
  | cons n ns ih =>
    rw [map_cons, arrayItems]
    cases i with
    | zero =>
      cases hx
      have hhole : x.isElision = false := by
        unfold isElision
        split
        · simp [spell_node, Spell.node] at h
        · rfl
      simp [hhole, h]
    | succ i =>
      have hrest := ih (i := i) hx (j + 1)
      rw [Nat.add_right_comm, Nat.add_assoc] at hrest
      have hne : ns ≠ [] := by
        rintro rfl
        cases hx
      simp [hrest, hne]

/-- What is printed for a part in its role has an `else`. -/
def Role.HasElse (r : Role) (i : Nat) (x : Node) (path : Path) : Prop :=
  match r with
  | .list _ | .optionalList _ => ∀ sep, (Spelling.join sep (items i (asPart algebra x))).HasElse (i :: path)
  | _ => x.spell.HasElse path

attribute [local simp] Kind.shape Shape.role Role.HasElse Spell.node Algebra.part Spell.optional Spelling.concat Spelling.commas

/-- An `else` that is printed for a part is printed for the node. -/
theorem hasElse_part (count : k.shape.admits parts.length)
    (parted : ∀ i x, parts[i]? = some x → Formed (k.shape.role i) x) (hx : parts[i]? = some x) (ha : x.isAbsent = false)
    (h : (k.shape.role i).HasElse i x path) : (Spell.node k m (parts.map (asPart algebra))).HasElse (i :: path) := by
  have hvalues (ns : List Node) : (ns.map (asPart algebra)).map (·.value) = ns.map spell := map_map
  have hlist (sep : List Piece) (h : x.spell.HasElse path) :
      (Spelling.join sep (numbered 0 (parts.map spell))).HasElse (i :: path) := by
    obtain ⟨s, hs⟩ := hasElse_numbered hx h 0
    exact Spelling.hasElse_join sep ⟨s, by rwa [Nat.zero_add] at hs⟩
  have hpresent {p : Place} (sep : List Piece) (hk : k.shape = ⟨[], some p⟩) (h : x.spell.HasElse path) :
      (Spelling.join sep (present 0 (parts.map (asPart algebra)))).HasElse (i :: path) := by
    have hall := Formed.of_rest hk parted
    rw [present_eq_numbered fun n hn => (hall n hn).isAbsent_eq_false]
    exact hlist sep h
  cases k with
  | plain | identifier | number | string | regex | boolean | null | this | elision | emptyStmt | debugger =>
    obtain rfl := Shape.parts_none count
    cases hx
  | program | varStatement => simpa using hpresent _ rfl h
  | block =>
    have hall := hpresent [] rfl h
    unfold Spell.node
    simp only
    split
    · next s hs => simpa [hs, Spelling.join] using hall
    · exact Spelling.hasElse_braced.2 hall
  | object => exact Spelling.hasElse_braced.2 (hvalues parts ▸ hlist _ h)
  | defaultClause => exact Spelling.hasElse_append.2 (.inr (hvalues parts ▸ hlist _ h))
  | array => simpa using hasElse_arrayItems hx h 0
  | unary | exprStmt | throwStmt | finallyClause | returnStmt =>
    obtain ⟨a, rfl⟩ := Shape.parts_one count
    rcases i with _ | i <;> cases hx
    simp at h
    simp [h, ha]
  | dot | comma | binary | doWhile | whileStmt | withStmt | label | catchClause | varDecl | getter | newExpr =>
    obtain ⟨a, b, rfl⟩ := Shape.parts_two count
    rcases i with _ | _ | i <;> cases hx <;> simp at h <;>
      simp [h, ha]
  | conditional | ifStmt | forIn | tryStmt | switchStmt | setter =>
    obtain ⟨a, b, c, rfl⟩ := Shape.parts_three count
    rcases i with _ | _ | _ | i <;> cases hx <;> simp at h <;>
      simp [h, ha]
  | forStmt =>
    obtain ⟨a, b, c, d, rfl⟩ := Shape.parts_four count
    rcases i with _ | _ | _ | _ | i <;> cases hx <;> simp at h <;>
      simp [h, ha]
  | call | caseClause =>
    obtain ⟨a, rest, rfl⟩ := Shape.parts_cons count
    cases i with
    | zero =>
      cases hx
      have h : x.spell.HasElse path := h
      simp [h]
    | succ i =>
      replace hx : rest[i]? = some x := hx
      obtain ⟨s, hs⟩ := hasElse_numbered hx h 1
      have hrest (sep : List Piece) := Spelling.hasElse_join sep ⟨s, hs⟩
      rw [← hvalues, Nat.add_comm] at hrest
      simp [hrest, -map_map]
  | bracket =>
    obtain ⟨a, b, rfl⟩ := Shape.parts_two count
    unfold Spell.node
    simp only
    split
    · next name hname =>
      rcases i with _ | _ | i <;> cases hx
      · have h : x.spell.HasElse path := h
        simp [h]
      · replace hname : memberName? x = some name := hname
        unfold memberName? at hname
        split at hname
        · simp [spell_node] at h
        · cases hname
    · rcases i with _ | _ | i <;> cases hx <;> simp at h <;> simp [h]
  | assign text =>
    obtain ⟨p, hp, hshape⟩ := Kind.shape_assign text
    obtain ⟨a, b, rfl⟩ := Shape.parts_two (hshape ▸ count)
    rw [hshape] at h
    rcases i with _ | _ | i <;> cases hx <;> simp at h <;> simp [h]
  | function form =>
    obtain ⟨a, b, c, rfl⟩ : ∃ a b c, parts = [a, b, c] := by cases form <;> exact Shape.parts_three count
    cases form <;> rcases i with _ | _ | _ | i <;> cases hx <;> simp at h <;>
      simp [h, ha]
  | continueStmt | breakStmt =>
    obtain ⟨a, rfl⟩ := Shape.parts_one count
    cases i with
    | zero =>
      obtain ⟨name, mark, rfl, -⟩ := (parted 0 x hx).name rfl ha
      simp [spell_node] at h
    | succ => cases hx

theorem Role.hasElse_node (place : r.place? = some p) (h : n.spell.HasElse path) (j : Nat) : r.HasElse j n path := by
  cases r with
  | one | optional => exact h
  | _ => cases place

/-- Of every `if` with an `else`, the `else` is printed. -/
theorem hasElse_of_at? (h : Formed r n) (hno : no.isAbsent = false)
    (hat : n.at? path = some (.node .ifStmt m [test, yes, no])) (j : Nat) : r.HasElse j n path := by
  induction path generalizing n r j with
  | nil =>
    cases by simpa [at?] using hat
    cases h with
    | node place =>
      refine Role.hasElse_node place ?_ j
      rw [spell_node, node_ifElse hno]
      simp
  | cons i path ih =>
    cases h with
    | absent => cases hat
    | @seq _ p ns list items =>
      obtain ⟨x, hx, hat⟩ := Option.bind_eq_some_iff.1 (by simpa [at?] using hat)
      have helse : x.spell.HasElse path := ih (items x (mem_of_getElem? hx)) hat 0
      cases r with
      | list | optionalList => exact fun sep => Spelling.hasElse_join sep (hasElse_items hx helse j)
      | _ => cases list
    | node place _ _ count parted =>
      obtain ⟨x, hx, hat⟩ := Option.bind_eq_some_iff.1 (by simpa [at?] using hat)
      have ha : x.isAbsent = false := by
        cases x with
        | absent => cases path <;> cases hat
        | _ => rfl
      refine Role.hasElse_node place ?_ j
      rw [spell_node]
      exact hasElse_part count parted hx ha (ih (parted i x hx) hat i)

end JsMinify
