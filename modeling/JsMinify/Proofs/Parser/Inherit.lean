import JsMinify.Proofs.Node.Restorable
import JsMinify.Proofs.Parser.Layout

/-!
# What parts inherit

What is asked of a node that is to be read back is asked of the parts that a rule has made it from: they are
restorable, a comma that has lost its parentheses stands where it may, and what stands at the beginning of a
statement does not begin as a statement does (`Fine`). `Rule.isFair` checks that a rule puts every part where this
holds, and `Rule.fine_at` says what follows.
-/

namespace JsMinify

open List Node

namespace Grammar

/-- The symbol may stand for a comma without parentheses around it. -/
def Sym.takesBare : Sym → Bool
  | .n (.expr .comma .plain) | .n (.exprOpt .plain) => true
  | _ => false

/-- The symbol stands for expressions at the beginning of a statement. -/
def Sym.isLeading : Sym → Bool
  | .n (.expr _ .noBrace) => true
  | _ => false

/-- What a symbol stands for can be read back there. -/
structure Fine (shows : Kind → Bool) (s : Sym) (n : Node) : Prop where
  every : n.every (isRestorable shows) = true
  bare : n.isBare shows = true → s.takesBare = true
  leads : s.isLeading = true → n.leads shows = true

/-! ## The check of a rule -/

/-- The slot takes up the value at a position. -/
def Slot.mentions (i : Nat) : Slot → Bool
  | .part j | .name j | .items j | .names j | .decl j | .vars j => j == i
  | .declInit j j' => j == i || j' == i
  | .list is => is.contains i
  | _ => false

/-- The slot takes up lists. -/
def Slot.isList : Slot → Bool
  | .items _ | .names _ | .vars _ | .list _ => true
  | _ => false

/-- The slot takes up a node. -/
def Slot.isPart : Slot → Bool
  | .part _ | .name _ => true
  | _ => false

def isListAt (right : List Sym) (i : Nat) : Bool :=
  right[i]? == some (.n .caseBlock) || right[i]? == some (.n .empty) || (itemsAt right i).isSome

/-- The items at a position may be commas. -/
def mayBeBareAt (right : List Sym) (i : Nat) : Bool := (itemsAt right i).any (·.takes .comma)

/-- The slot with a number puts the value at a position where it may stand. -/
def Slot.isFairAt (left : Nonterminal) (right : List Sym) (k : Kind) (i : Nat) (s : Sym) (slot : Slot) (j : Nat) : Bool :=
  slot.mentions i && (!slot.isList || isListAt right i) && match slot with
    | .part _ => (!k.commaParts.contains j || s.takesBare) &&
      (!s.isLeading || k == .exprStmt && j == 0 || (Sym.n left).isLeading && k.leadsTo j)
    | .name _ => !s.isLeading && (!k.commaParts.contains j || s.takesBare)
    | .items _ => !s.isLeading && (k.commaParts.isEmpty || !mayBeBareAt right i)
    | _ => !s.isLeading

/-- The text of the operator at a position. -/
def opTextAt (right : List Sym) (i : Nat) : String :=
  match right[i]? with
  | some (.t k) => k.word.2
  | _ => ""

/-- The slots put the value at a position where it may stand. -/
def slotsFairAt (left : Nonterminal) (right : List Sym) (k : Kind) (i : Nat) (s : Sym) (slots : List Slot) : Bool :=
  slots.zipIdx.any fun x =>
    x.1.isFairAt left right k i s x.2 && (!x.1.isPart || (slots.take x.2).all (·.isSingle))

/-- The action puts the value at a position where it may stand. -/
def Action.isFairAt (left : Nonterminal) (right : List Sym) (i : Nat) (s : Sym) : Action → Bool
  | .pass j => j == i && (!(Sym.n left).takesBare || s.takesBare) && (!s.isLeading || (Sym.n left).isLeading)
  | .seq slots => !s.isLeading && slots.any fun x => x.mentions i && (!x.isList || isListAt right i)
  | .make k _ slots => slotsFairAt left right k i s slots
  | .operator form op slots =>
    slotsFairAt left right (form.kind (opTextAt right op)) i s slots && (form == .assign || (opTextAt right op) != "")
  | .nameExpr => i == 0 && !s.isLeading && !(Sym.n left).takesBare
  | .parens => i == 1 && !s.isLeading && s.takesBare
  | _ => false

/-- The rule only changes the level of an expression. -/
def Rule.isStep (r : Rule) : Bool :=
  match r with
  | ⟨.expr _ _, [.n (.expr _ _)], .pass 0⟩ => true
  | _ => false

/-- The rule puts the value of the symbol at a position where it may stand. -/
def Rule.isFairAt (r : Rule) (i : Nat) : Sym → Bool
  | .t _ => true
  | .n A => A == .empty || A == .assignmentOperator || r.action.isFairAt r.left r.right i (.n A)

/-- The rule puts each part where it may stand. -/
def Rule.isFair (r : Rule) : Bool := r.isStep || r.right.zipIdx.all fun x => r.isFairAt x.2 x.1

theorem rules_fair : ∀ r ∈ rules, r.isFair := by decide +kernel

/-! ## Lists -/

theorem not_bare_of_takes {p : Place} (hp : p.takes .comma = false) {x : Node} (h : Formed (.one p) x)
    (shows : Kind → Bool) : x.isBare shows = false := by
  cases h with
  | absent _ => rfl
  | seq _ _ => rfl
  | @node _ q k m parts place takes _ _ _ =>
    cases place
    cases k with
    | comma =>
      rw [hp] at takes
      cases takes
    | _ => rfl

variable {n : Node} {i : Nat}

section

variable {shows : Kind → Bool} {k : Kind} {m : Mark} {parts : List Node}

theorem every_of_items (hn : n = .absent ∨ ∃ ns, n = .seq ns)
    (h : ∀ x ∈ n.items, x.every (isRestorable shows) ∧ x.isBare shows = false) :
    n.every (isRestorable shows) := by
  rcases hn with rfl | ⟨ns, rfl⟩
  · rfl
  · rw [every_seq, Bool.and_eq_true, all_eq_true, isRestorable, all_eq_true]
    constructor
    · intro x hx
      rw [(h x hx).2]
      rfl
    · intro x hx
      exact (h x hx).1

theorem items_of_every {ns : List Node} (h : (seq ns).every (isRestorable shows)) :
    ∀ x ∈ ns, x.every (isRestorable shows) ∧ x.isBare shows = false := by
  rw [every_seq, Bool.and_eq_true, all_eq_true, isRestorable, all_eq_true] at h
  intro x hx
  exact ⟨h.2 x hx, by simpa using h.1 x hx⟩

theorem parts_of_every (h : (node k m parts).every (isRestorable shows)) :
    (node k m parts).isRestorable shows ∧ ∀ x ∈ parts, x.every (isRestorable shows) := by
  rw [every_node, Bool.and_eq_true, all_eq_true] at h
  exact h

/-- The parts of a node in which no comma may stand are not bare. -/
theorem not_bare_of_parts (hk : k.commaParts = [])
    (h : (node k m parts).isRestorable shows) : ∀ x ∈ parts, x.isBare shows = false := by
  intro x hx
  by_contra hbare
  obtain ⟨j, hj⟩ := mem_iff_getElem?.1 hx
  have hmem := mem_commaParts (j := j) h (by rw [getD_eq_getElem?_getD, hj]; simpa using hbare)
  rw [hk] at hmem
  cases hmem

/-! ## What a slot takes up -/

variable {right : List Sym} {args : List Item} (h : ItemsHold Suits right args)
  {slots : List Slot} {s : Sym}

include h

theorem list_at (hi : isListAt right i) : nodeAt args i = .absent ∨ ∃ ns, nodeAt args i = .seq ns := by
  rw [isListAt, Bool.or_eq_true, Bool.or_eq_true, beq_iff_eq, beq_iff_eq] at hi
  rcases hi with (hi | hi) | hi
  · obtain ⟨clauses, last, hv, -⟩ := forall₂_arg h hi
    exact .inr ⟨[clauses, last], by rw [nodeAt, hv]⟩
  · exact .inl (absent_at h hi)
  · obtain ⟨p, hp⟩ := Option.isSome_iff_exists.1 hi
    obtain ⟨r, hr, hitems⟩ := Option.bind_eq_some_iff.1 hp
    have hn := (node_at h hr).2
    generalize nodeAt args i = n at hn
    cases hn with
    | absent => exact .inl rfl
    | seq _ _ => exact .inr ⟨_, rfl⟩
    | node place _ _ _ _ =>
      cases r with
      | one | optional => cases hitems
      | _ => cases place

theorem not_bare_at (hi : isListAt right i) (hb : mayBeBareAt right i = false) :
    ∀ x ∈ (nodeAt args i).items, x.isBare shows = false := by
  intro x hx
  rw [isListAt, Bool.or_eq_true, Bool.or_eq_true, beq_iff_eq, beq_iff_eq] at hi
  rcases hi with (hi | hi) | hi
  · obtain ⟨clauses, last, hv, hclauses, hlast⟩ := forall₂_arg h hi
    have hnode : nodeAt args i = .seq [clauses, last] := by rw [nodeAt, hv]
    rw [hnode] at hx
    have hx : x = clauses ∨ x = last := by simpa [items] using hx
    rcases hx with rfl | rfl
    · cases hclauses with
      | node place _ _ _ _ => cases place
      | _ => rfl
    · cases hlast with
      | @node _ p k m parts place takes _ _ _ =>
        cases place
        cases k with
        | comma => cases takes
        | _ => rfl
      | _ => rfl
  · rw [absent_at h hi] at hx
    cases hx
  · obtain ⟨p, hp⟩ := Option.isSome_iff_exists.1 hi
    rw [mayBeBareAt, hp] at hb
    exact not_bare_of_takes hb (items_at h hp x hx) shows

theorem Slot.every_at {slot : Slot} (hm : slot.mentions i) (hlist : slot.isList → isListAt right i)
    (hfill : ∀ x ∈ slot.fill args, x.every (isRestorable shows))
    (hbare : (∃ j, slot = .items j) → ∀ x ∈ slot.fill args, x.isBare shows = false) :
    (nodeAt args i).every (isRestorable shows) ∧ ((nodeAt args i).isBare shows → slot = .part i ∨ slot = .name i) := by
  have hlisted : slot.isList → (∀ x ∈ (nodeAt args i).items, x.every (isRestorable shows) ∧ x.isBare shows = false) →
      (nodeAt args i).every (isRestorable shows) ∧ ((nodeAt args i).isBare shows → slot = .part i ∨ slot = .name i) := by
    intro hl hitems
    have hn := list_at h (hlist hl)
    refine ⟨every_of_items hn hitems, fun hb => ?_⟩
    rcases hn with hn | ⟨ns, hn⟩ <;> rw [hn] at hb <;> cases hb
  have hdeclared {m : Mark} {y : Node} (hdecl : (node .varDecl m [(nodeAt args i).asCandidate, y]).every (isRestorable shows)) :
      (nodeAt args i).every (isRestorable shows) ∧ ((nodeAt args i).isBare shows → slot = .part i ∨ slot = .name i) := by
    obtain ⟨hown, hparts⟩ := parts_of_every hdecl
    have hbare := not_bare_of_parts rfl hown _ mem_cons_self
    have hevery := hparts _ mem_cons_self
    rw [every_asCandidate] at hevery
    rw [isBare_asCandidate] at hbare
    exact ⟨hevery, fun hb => by rw [hbare] at hb; cases hb⟩
  cases slot with
  | part j =>
    obtain rfl := beq_iff_eq.1 hm
    exact ⟨hfill _ (by simp [fill]), fun _ => .inl rfl⟩
  | name j =>
    obtain rfl := beq_iff_eq.1 hm
    have := hfill (nodeAt args j).asCandidate (by simp [fill])
    rw [every_asCandidate] at this
    exact ⟨this, fun _ => .inr rfl⟩
  | items j =>
    obtain rfl := beq_iff_eq.1 hm
    exact hlisted rfl fun x hx => ⟨hfill x hx, hbare ⟨j, rfl⟩ x hx⟩
  | names j =>
    obtain rfl := beq_iff_eq.1 hm
    refine hlisted rfl fun x hx => ?_
    have hseq := items_of_every (hfill (.seq ((nodeAt args j).items.map asCandidate)) (by simp [fill]))
      x.asCandidate (mem_map_of_mem hx)
    rwa [every_asCandidate, isBare_asCandidate] at hseq
  | list is =>
    refine hlisted rfl fun x hx => ?_
    refine items_of_every (hfill (.seq (is.flatMap fun i => (nodeAt args i).items)) (by simp [fill])) x ?_
    exact mem_flatMap.2 ⟨i, contains_iff_mem.1 hm, hx⟩
  | vars j =>
    obtain rfl := beq_iff_eq.1 hm
    have hvars := parts_of_every (hfill (.node .varStatement (markAt args j) (nodeAt args j).items) (by simp [fill]))
    exact hlisted rfl fun x hx => ⟨hvars.2 x hx, not_bare_of_parts rfl hvars.1 x hx⟩
  | decl j =>
    obtain rfl := beq_iff_eq.1 hm
    exact hdeclared (hfill (.node .varDecl (markAt args j) [(nodeAt args j).asCandidate, .absent]) (by simp [fill]))
  | declInit j j' =>
    have hdecl := hfill (.node .varDecl (markAt args j) [(nodeAt args j).asCandidate, nodeAt args j']) (by simp [fill])
    rcases Bool.or_eq_true _ _ ▸ hm with hm | hm
    · obtain rfl := beq_iff_eq.1 hm
      exact hdeclared hdecl
    · obtain rfl := beq_iff_eq.1 hm
      obtain ⟨hown, hparts⟩ := parts_of_every hdecl
      have hbare := not_bare_of_parts rfl hown (nodeAt args j') (by simp)
      exact ⟨hparts _ (by simp), fun hb => by rw [hbare] at hb; cases hb⟩
  | _ => cases hm

/-- What the slots of a node take up can be read back where it stands. -/
theorem slots_fine {left : Nonterminal} (hm : m.parens = false) (hfair : slotsFairAt left right k i s slots)
    (hn : Fine shows (.n left) (.node k m (slots.flatMap (Slot.fill args)))) : Fine shows s (nodeAt args i) := by
  obtain ⟨hrestorable, hevery⟩ := parts_of_every hn.every
  obtain ⟨⟨slot, j⟩, hmem, hfair⟩ := any_eq_true.1 hfair
  have hslot := mk_mem_zipIdx_iff_getElem?.1 hmem
  simp only [Slot.isFairAt, Bool.and_eq_true, Bool.or_eq_true, Bool.not_eq_true'] at hfair
  obtain ⟨⟨⟨hmentions, hlist⟩, hplace⟩, hsingle⟩ := hfair
  have hfill : ∀ x ∈ slot.fill args, x ∈ slots.flatMap (Slot.fill args) := by
    intro x hx
    exact mem_flatMap.2 ⟨slot, mem_of_getElem? hslot, hx⟩
  have hlist : slot.isList → isListAt right i := by
    intro hl
    rw [hl] at hlist
    exact hlist.resolve_left Bool.noConfusion
  have hitems : (∃ j, slot = .items j) → ∀ x ∈ slot.fill args, x.isBare shows = false := by
    rintro ⟨j', rfl⟩ x hx
    obtain rfl := beq_iff_eq.1 hmentions
    have hplace : (!s.isLeading && (k.commaParts.isEmpty || !mayBeBareAt right j')) := hplace
    rw [Bool.and_eq_true, Bool.or_eq_true, Bool.not_eq_true'] at hplace
    rcases hplace.2 with hempty | hnot
    · exact not_bare_of_parts (isEmpty_iff.1 hempty) hrestorable x (hfill x hx)
    · exact not_bare_at h (hlist rfl) (by simpa using hnot) x hx
  obtain ⟨hev, hbare⟩ := Slot.every_at h hmentions hlist (fun x hx => hevery x (hfill x hx)) hitems
  have hpart {x : Node} (hp : slot.isPart ≠ false) (hx : slot.fill args = [x]) := parts_getD (hsingle.resolve_left hp) hslot hx
  refine ⟨hev, fun hb => ?_, fun hl => ?_⟩
  · rcases hbare hb with rfl | rfl
    · have hj := mem_commaParts (j := j) hrestorable (by rw [hpart Bool.noConfusion rfl]; exact hb)
      have hplace : (!k.commaParts.contains j || s.takesBare) := (Bool.and_eq_true _ _ ▸ hplace).1
      rwa [contains_iff_mem.2 hj] at hplace
    · have hj := mem_commaParts (j := j) hrestorable (by rw [hpart Bool.noConfusion rfl, isBare_asCandidate]; exact hb)
      have hplace : (!k.commaParts.contains j || s.takesBare) := (Bool.and_eq_true _ _ ▸ hplace).2
      rwa [contains_iff_mem.2 hj] at hplace
  · have hleading : slot = .part i ∧ (k = .exprStmt ∧ j = 0 ∨ (Sym.n left).isLeading ∧ k.leadsTo j) := by
      cases slot with
      | part j' =>
        obtain rfl := beq_iff_eq.1 hmentions
        have hplace := (Bool.and_eq_true _ _ ▸ hplace).2
        rw [hl] at hplace
        simpa using hplace
      | _ =>
        simp only [hl] at hplace
        simp at hplace
    obtain ⟨rfl, hwhy⟩ := hleading
    rw [← hpart Bool.noConfusion rfl]
    rcases hwhy with ⟨rfl, rfl⟩ | ⟨hleft, hto⟩
    · exact leads_first hrestorable
    · exact leads_part (hn.leads hleft) hm hto

theorem seq_fine (hs : s.isLeading = false) (hfair : slots.any (fun x => x.mentions i && (!x.isList || isListAt right i)))
    (hn : (seq (slots.flatMap (Slot.fill args))).every (isRestorable shows)) :
    Fine shows s (nodeAt args i) := by
  obtain ⟨slot, hmem, hfair⟩ := any_eq_true.1 hfair
  simp only [Bool.and_eq_true, Bool.or_eq_true, Bool.not_eq_true'] at hfair
  have hitems : ∀ x ∈ slot.fill args, x.every (isRestorable shows) ∧ x.isBare shows = false := by
    intro x hx
    exact items_of_every hn x (mem_flatMap.2 ⟨slot, hmem, hx⟩)
  have hlist : slot.isList → isListAt right i := by
    intro hl
    rw [hl] at hfair
    exact hfair.2.resolve_left Bool.noConfusion
  obtain ⟨hev, hbare⟩ := Slot.every_at h hfair.1 hlist (fun x hx => (hitems x hx).1) fun _ x hx => (hitems x hx).2
  refine ⟨hev, fun hb => ?_, fun hl => by rw [hs] at hl; cases hl⟩
  rcases hbare hb with rfl | rfl
  · rw [(hitems (nodeAt args i) (by simp [Slot.fill])).2] at hb
    cases hb
  · have hnot := (hitems (nodeAt args i).asCandidate (by simp [Slot.fill])).2
    rw [isBare_asCandidate, hb] at hnot
    cases hnot

theorem textAt_eq (hi : opTextAt right i ≠ "") : textAt args i = opTextAt right i := by
  unfold opTextAt at hi ⊢
  split at hi
  · next k hk =>
    obtain ⟨t, ht, hkind, hg⟩ := forall₂_arg h hk
    obtain rfl := mem_singleton.1 hkind
    have hsome : t.kind.text?.isSome := by
      by_contra hnone
      rw [TokenKind.word, Option.not_isSome_iff_eq_none.1 hnone] at hi
      exact hi rfl
    rw [textAt, ht, ← Token.word_of_text? hg hsome]
    rfl
  · exact absurd rfl hi

end

/-- What a rule takes up can be read back where it stands, if what the rule builds can. -/
theorem Rule.fine_at {shows : Kind → Bool} {r : Rule} (hr : r ∈ rules) (hstep : r.isStep = false) {args : List Item}
    (h : ItemsHold Suits r.right args) (hrun : r.action.run args = .node n)
    (hn : Fine shows (.n r.left) n) {A : Nonterminal} (hi : r.right[i]? = some (.n A))
    (hA : A ≠ .assignmentOperator) : Fine shows (.n A) (nodeAt args i) := by
  have hfair := rules_fair r hr
  rw [isFair, hstep, Bool.false_or, all_eq_true] at hfair
  have hfair := hfair (.n A, i) (mk_mem_zipIdx_iff_getElem?.2 hi)
  rw [isFairAt, Bool.or_eq_true, Bool.or_eq_true, beq_iff_eq, beq_iff_eq] at hfair
  rcases hfair with (rfl | hassign) | hfair
  · have habsent : nodeAt args i = .absent := absent_at h hi
    rw [habsent]
    exact ⟨rfl, fun hb => (by cases hb), fun hl => (by cases hl)⟩
  · exact absurd hassign hA
  · generalize r.action = a at hrun hfair
    cases a with
    | pass j =>
      simp only [Action.isFairAt, Bool.and_eq_true, Bool.or_eq_true, Bool.not_eq_true', beq_iff_eq] at hfair
      obtain ⟨⟨rfl, hbare⟩, hleads⟩ := hfair
      have hnode : nodeAt args j = n := by
        rw [nodeAt]
        rw [Action.run] at hrun
        rw [hrun]
      rw [hnode]
      refine ⟨hn.every, fun hb => ?_, fun hl => hn.leads ?_⟩
      · have htakes := hn.bare hb
        rw [htakes] at hbare
        exact hbare.resolve_left Bool.noConfusion
      · rw [hl] at hleads
        exact hleads.resolve_left Bool.noConfusion
    | absent => cases hfair
    | seq slots =>
      cases hrun
      rw [Action.isFairAt, Bool.and_eq_true, Bool.not_eq_true'] at hfair
      exact seq_fine h hfair.1 hfair.2 hn.every
    | slot s => cases hfair
    | make k line slots =>
      cases hrun
      exact slots_fine h rfl hfair hn
    | operator form op slots =>
      cases hrun
      rw [Action.isFairAt, Bool.and_eq_true, Bool.or_eq_true, beq_iff_eq, bne_iff_ne] at hfair
      obtain ⟨hslots, hform⟩ := hfair
      refine slots_fine h rfl ?_ hn
      rcases hform with rfl | htext
      · exact hslots
      · rw [textAt_eq h htext]
        exact hslots
    | nameExpr =>
      cases hrun
      simp only [Action.isFairAt, Bool.and_eq_true, Bool.not_eq_true', beq_iff_eq] at hfair
      obtain ⟨⟨rfl, hleading⟩, htakes⟩ := hfair
      refine ⟨?_, fun hb => ?_, fun hl => by rw [hleading] at hl; cases hl⟩
      · have := hn.every
        rwa [every_modifyMark] at this
      · have hmark : isBare shows _ = _ :=
          isBare_modifyMark (f := fun m => { m with candidate := true, inExpr := true }) (fun _ => rfl) (nodeAt args 0)
        have hbare := hn.bare (hmark.trans hb)
        rw [htakes] at hbare
        cases hbare
    | parens =>
      cases hrun
      simp only [Action.isFairAt, Bool.and_eq_true, Bool.not_eq_true', beq_iff_eq] at hfair
      obtain ⟨⟨rfl, hleading⟩, htakes⟩ := hfair
      refine ⟨?_, fun _ => htakes, fun hl => by rw [hleading] at hl; cases hl⟩
      have := hn.every
      rwa [inParens, every_modifyMark] at this

end Grammar

end JsMinify
