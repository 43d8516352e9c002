import JsMinify.Proofs.Node.Composing

/-!
# The pieces of a tree

Every piece that is printed for a well-formed tree is a blank or one lexeme of its kind, and no slash that
divides stands before a star (`Clean`). Pieces are put together without changing this, so it is shown node by
node; only the right operand of a division has to begin as operands do.
-/

namespace JsMinify

open List Spell Node Lexeme

variable {n : Node} {r : Role} {ss : List Spelling} {text : String} {ps : List Piece} {k : Kind} {path : Path} {m : Mark}
  {parts : List Node}

/-- A star, which a slash must not stand before. -/
def Piece.isStar (p : Piece) : Bool := p.kind == some .times || p.kind == some .timesAssign

/-- What follows a slash that divides is there, and is no star. -/
def Starless : List Piece → Prop
  | [] => True
  | p :: ps => (p.kind = some .divide → ∃ q ∈ ps.head?, q.isStar = false) ∧ Starless ps

/-- The pieces are sound, and no slash that divides stands before a star. -/
structure Clean (s : Spelling) : Prop where
  sound : ∀ p ∈ s.pieces, p.isSound = true
  starless : Starless s.pieces

theorem Starless.append {qs : List Piece} (h : Starless ps) (h' : Starless qs) : Starless (ps ++ qs) := by
  induction ps with
  | nil => exact h'
  | cons p ps ih =>
    refine ⟨fun hp => ?_, ih h.2⟩
    obtain ⟨q, hq, hstar⟩ := h.1 hp
    refine ⟨q, ?_, hstar⟩
    change (ps ++ qs).head? = some q
    rw [head?_append, Option.mem_def.1 hq]
    rfl

theorem Starless.under (h : Starless ps) (i : Nat) : Starless (ps.map (Piece.under i)) := by
  induction ps with
  | nil => trivial
  | cons p ps ih =>
    refine ⟨fun hp => ?_, ih h.2⟩
    obtain ⟨q, hq, hstar⟩ := h.1 hp
    exact ⟨q.under i, by rw [head?_map]; exact Option.mem_map_of_mem _ hq, hstar⟩

namespace Clean

variable {s t : Spelling}

theorem append (h : Clean s) (h' : Clean t) : Clean (s ++ t) := by
  refine ⟨fun p hp => ?_, h.starless.append h'.starless⟩
  rcases mem_append.1 hp with hp | hp
  · exact h.sound p hp
  · exact h'.sound p hp

theorem under (h : Clean s) (i : Nat) : Clean (s.under i) := by
  refine ⟨fun p hp => ?_, h.starless.under i⟩
  obtain ⟨q, hq, rfl⟩ := mem_map.1 hp
  exact h.sound q hq

theorem tok {k : TokenKind} (h : (⟨some k, text, []⟩ : Piece).isSound && k != .divide) : Clean (.tok k text) := by
  simp only [Bool.and_eq_true, bne_iff_ne] at h
  refine ⟨fun p hp => ?_, fun hk => absurd (Option.some.inj hk) h.2, trivial⟩
  obtain rfl := mem_singleton.1 hp
  exact h.1

theorem gap : Clean .gap := by
  refine ⟨fun p hp => ?_, nofun, trivial⟩
  obtain rfl := mem_singleton.1 hp
  rfl

theorem empty : Clean .empty := ⟨nofun, trivial⟩

/-- A slash that divides before what can begin an expression. -/
theorem divide (hfirst : s.opens) (h : Clean s) : Clean (op "/" ++ s) := by
  refine ⟨forall_mem_cons.2 ⟨by decide, h.sound⟩, fun _ => ?_, h.starless⟩
  obtain ⟨q, hq, hopens⟩ := (Option.any_eq_true _ _).1 hfirst
  refine ⟨q, hq, ?_⟩
  obtain ⟨kind, text, owner⟩ := q
  by_contra hstar
  rw [Bool.not_eq_false] at hstar
  simp only [Piece.isStar, Bool.or_eq_true, beq_iff_eq] at hstar
  rcases hstar with rfl | rfl <;> cases hopens

theorem inParens (h : Clean s) : Clean s.inParens := ((tok rfl).append h).append (tok rfl)

theorem braced (h : Clean s) : Clean s.braced := ((tok rfl).append h).append (tok rfl)

theorem afterWord (h : Clean s) (h' : Clean t) : Clean (.afterWord s t) := by
  unfold Spelling.afterWord
  split
  · exact h.append h'
  · exact (h.append gap).append h'

theorem bracedOnce (h : Clean s) : Clean s.bracedOnce := by
  unfold Spelling.bracedOnce
  split
  · exact h
  · exact h.braced

theorem branch (h : Clean s) : Clean s.branch := by
  unfold Spelling.branch
  split
  · exact ⟨h.braced.sound, h.braced.starless⟩
  · exact h

theorem joins : Joins fun _ => Clean where
  congr hpieces h := ⟨hpieces ▸ h.sound, hpieces ▸ h.starless⟩
  append := append
  under h := under h _
  empty := empty

theorem concat (h : ∀ s ∈ ss, Clean s) : Clean (.concat ss) := joins.concat (w := []) h

/-- Clean pieces make up clean expressions. -/
theorem composes : Composes (fun _ => Clean) (fun _ => Clean) where
  toJoins := joins
  gap := gap
  tok h := tok (Bool.and_eq_true_iff.1 h).1
  divide := divide
  inParens := inParens
  inBrackets h := ((tok rfl).append h).append (tok rfl)
  listed := joins
  weaken h := h
  braced := braced

end Clean

/-! ## Nodes -/

theorem clean_jumpTarget (h : Formed (.optional .name) n) (ha : n.isAbsent = false) : Clean (jumpTarget n) := by
  obtain ⟨text, m, rfl, hwhole⟩ := h.name rfl ha
  exact Clean.composes.word (w := []) hwhole rfl

/-- The parts of a node are as its kind asks for, and their pieces are clean. -/
abbrev PartsClean (k : Kind) (parts : List Node) (path : Path) : Prop :=
  PartsHold (Place.Composed (fun _ => Clean) (fun _ => Clean)) k parts path

/-- A word before a jump's target, if it has one. -/
theorem clean_jump {x : Node} (h : PartsClean k [x] path) (hk : k.shape.role 0 = .optional .name)
    {word : Spelling} (hword : Clean word) :
    Clean (if x.isAbsent then word ++ .tok .semi ";" else word ++ .gap ++ (jumpTarget x).under 0 ++ .tok .semi ";") := by
  have hsemi : Clean (.tok .semi ";") := .tok rfl
  split
  · exact hword.append hsemi
  · next ha =>
    have hx := h.parted 0 x rfl
    rw [hk] at hx
    exact ((hword.append .gap).append ((clean_jumpTarget hx (by simpa using ha)).under 0)).append hsemi

/-- The pieces of a node are clean if those of its parts are. -/
theorem clean_node (hplain : k ≠ .plain) (hhole : ∀ text, k ≠ .elision text) (h : PartsClean k parts path) :
    Clean (Spell.node k m (parts.map (asPart algebra))) := by
  by_cases hquiet : k.isQuiet
  · exact Clean.composes.node hquiet hhole h
  have hw := h.worded
  have hsemi : Clean (.tok .semi ";") := .tok rfl
  have hcolon : Clean (.tok .colon ":") := .tok rfl
  have optional {x : Node} {i : Nat} (hx : x = .absent ∨ Clean x.spell) :
      Clean (Spell.optional .empty i (asPart algebra x)) := Clean.joins.optional (w := []) .empty hx
  cases k with
  | plain => exact absurd rfl hplain
  | emptyStmt s =>
    obtain rfl := beq_iff_eq.1 hw
    exact .tok rfl
  | debugger s =>
    obtain rfl := beq_iff_eq.1 hw
    exact (Clean.tok rfl).append hsemi
  | program =>
    rw [Spell.node, h.present_eq rfl]
    exact .concat (Clean.joins.parts (w := path) h.each)
  | block =>
    have hall := Clean.joins.parts (w := path) h.each
    rw [← h.present_eq rfl] at hall
    have hbody := (Clean.concat hall).braced
    unfold Spell.node
    simp only
    split
    · next s hs =>
      rw [hs] at hall
      exact hall s (mem_singleton_self s)
    · exact hbody
  | function form =>
    cases form with
    | declared =>
      obtain ⟨name, params, body, rfl, hname', ⟨ps, rfl, hparams⟩, hbody⟩ := h.three rfl
      have hname : Clean (.tok .kwFunction "function" ++ (.gap ++ name.spell.under 0)) :=
        (Clean.tok rfl).append (Clean.gap.append (.under hname' 0))
      have hhead := hname.append (Clean.composes.commas (w := path) (Clean.joins.items (w := path) (i := 1) hparams)).inParens
      exact hhead.append (Clean.composes.statements (.inr hbody))
    | expression => exact absurd rfl hquiet
  | exprStmt =>
    obtain ⟨a, rfl, ha⟩ := h.one rfl
    exact (Clean.under ha 0).append hsemi
  | ifStmt =>
    obtain ⟨test, yes, no, rfl, htest, hyes', hno'⟩ := h.three rfl
    have hif : Clean (.tok .kwIf "if") := .tok rfl
    have hhead := hif.append (optional (i := 0) (.inr htest)).inParens
    have hyes : Clean (yes.spell.under 1) := .under hyes' 1
    unfold Spell.node
    simp only
    split
    · exact ⟨(hhead.append hyes).sound, (hhead.append hyes).starless⟩
    · next ha =>
      have hno : Clean no.spell := of_present hno' ha
      refine (hhead.append ?_).append (Clean.afterWord (.tok rfl) (hno.under 2))
      split
      · exact hyes.branch
      · exact hyes
  | doWhile =>
    obtain ⟨test, body, rfl, htest', hbody'⟩ := h.two rfl
    have hbody := Clean.afterWord (s := .tok .kwDo "do") (.tok rfl) (.under hbody' 1)
    have htest := (Clean.under htest' 0).inParens
    exact ((hbody.append (.tok rfl)).append htest).append hsemi
  | whileStmt | withStmt =>
    obtain ⟨test, body, rfl, htest', hbody⟩ := h.two rfl
    have htest := (Clean.under htest' 0).inParens
    exact ((Clean.tok rfl).append htest).append (.under hbody 1)
  | forStmt =>
    obtain ⟨init, test, update, body, rfl⟩ := Shape.parts_four h.count
    have hheader := Clean.composes.forHeader (w := path) (h.each 0 init rfl) (h.each 1 test rfl) (h.each 2 update rfl)
    exact ((Clean.tok rfl).append hheader.inParens).append (.under (h.each 3 body rfl) 3)
  | forIn =>
    obtain ⟨target, object, body, rfl, htarget, hobject, hbody⟩ := h.three rfl
    have hheader := Clean.composes.forInHeader (w := path) htarget hobject
    exact ((Clean.tok rfl).append hheader.inParens).append (.under hbody 2)
  | continueStmt | breakStmt =>
    obtain ⟨a, rfl⟩ := Shape.parts_one h.count
    exact clean_jump h rfl (.tok rfl)
  | returnStmt =>
    obtain ⟨a, rfl, ha'⟩ := h.one rfl
    have hreturn : Clean (.tok .kwReturn "return") := .tok rfl
    unfold Spell.node
    simp only
    split
    · exact hreturn.append hsemi
    · next ha => exact (hreturn.afterWord (.under (of_present ha' ha) 0)).append hsemi
  | label =>
    obtain ⟨name, body, rfl, hname, hbody⟩ := h.two rfl
    exact ((Clean.under hname 0).append hcolon).append (.under hbody 1)
  | throwStmt =>
    obtain ⟨a, rfl, ha⟩ := h.one rfl
    exact (Clean.composes.led (w := path) rfl (.under ha 0)).append hsemi
  | switchStmt =>
    obtain ⟨test, clauses, default, rfl, htest', ⟨cs, rfl, hcases⟩, hdefault⟩ := h.three rfl
    have htest := (Clean.under htest' 0).inParens
    have hbody := (Clean.concat (Clean.joins.items (w := path) (i := 1) hcases)).append (optional (i := 2) hdefault)
    exact ((Clean.tok rfl).append htest).append hbody.braced
  | caseClause =>
    obtain ⟨test, body, rfl⟩ := Shape.parts_cons h.count
    have hbody := Clean.concat (Clean.joins.rest (w := path) test fun j x hx => h.each (j + 1) x hx)
    have hcase : Clean (.tok .kwCase "case" ++ .gap ++ test.spell.under 0) :=
      Clean.composes.led (w := path) rfl (.under (h.each 0 test rfl) 0)
    exact (hcase.append hcolon).append hbody
  | defaultClause =>
    rw [Spell.node, map_map]
    exact ((Clean.tok rfl).append hcolon).append (Clean.concat (Clean.joins.parts (w := path) h.each))
  | tryStmt =>
    obtain ⟨body, handler, final, rfl, hbody', hhandler, hfinal⟩ := h.three rfl
    have hbody := (Clean.under hbody' 0).bracedOnce
    exact (((Clean.tok rfl).append hbody).append (optional hhandler)).append (optional hfinal)
  | catchClause =>
    obtain ⟨name, body, rfl, hname', hbody⟩ := h.two rfl
    have hname := (Clean.under hname' 0).inParens
    exact ((Clean.tok rfl).append hname).append (Clean.under hbody 1).bracedOnce
  | finallyClause =>
    obtain ⟨body, rfl, hbody⟩ := h.one rfl
    exact (Clean.tok rfl).append (Clean.under hbody 0).bracedOnce
  | _ => exact absurd rfl hquiet

theorem Place.composed_clean {p : Place} (takes : p.takes k)
    (h : PartsClean k parts path) : p.Composed (fun _ => Clean) (fun _ => Clean) path (.node k m parts) := by
  have hplain : k ≠ .plain := by
    rintro rfl
    cases p <;> cases takes
  have hnode (hhole : ∀ text, k ≠ .elision text) : Clean (Node.node k m parts).spell := by
    rw [spell_node]
    exact clean_node hplain hhole h
  cases p with
  | element => exact fun hhole => hnode (by rintro text rfl; cases hhole)
  | _ => exact hnode (by rintro text rfl; cases takes)

/-- Every expression of a well-formed tree is printed in clean pieces. -/
theorem Formed.clean (h : Formed (.one .expression) n) : Clean n.spell :=
  h.holds (fun _ => Place.composed_clean) n.at?_nil

theorem Formed.clean_expression (h : Formed r (.node k m parts))
    (hk : k.isExpression) : Clean (Node.node k m parts).spell := by
  cases h with
  | node _ _ worded count parted => exact Formed.clean (.node rfl hk worded count parted)

end JsMinify
