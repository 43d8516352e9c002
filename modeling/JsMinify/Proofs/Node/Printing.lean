import JsMinify.Proofs.Node.Formed
import JsMinify.Proofs.Node.Spelling

/-!
# The printed text

The pieces of a tree make up its compact form (`Node.compact_eq`): what is shown about pieces holds of the
text that is printed. `node_agrees` says so of a node whose parts are printed as they are spelled.
-/

namespace JsMinify

open List Spelling Node

variable {s t : Spelling} {ns : List Node} {n : Node} {o : Compact.Out} {α : Type} {p : Printed} {text : String}

/-! ## Computations that may fail -/

/-- If the computation returns, what it returns has a property. -/
def Gives {α : Type} (o : Except TreeError α) (P : α → Prop) : Prop := ∀ a, o = .ok a → P a

namespace Gives

variable {α β : Type} {o : Except TreeError α} {P P' : α → Prop} {R : β → Prop} {f : α → Except TreeError β}

theorem pure {a : α} (h : P a) : Gives (pure a) P := by
  rintro b hb
  cases hb
  exact h

theorem bind (h : Gives o P) (hf : ∀ a, P a → Gives (f a) R) : Gives (o >>= f) R := by
  intro b hb
  cases o with
  | error e => cases hb
  | ok a => exact hf a (h a rfl) b hb

theorem step (hf : ∀ a, o = .ok a → Gives (f a) R) : Gives (o >>= f) R :=
  .bind (P := (o = .ok ·)) (fun _ => id) hf

theorem map {f : α → β} (h : Gives o P) (hf : ∀ a, P a → R (f a)) : Gives (f <$> o) R := by
  intro b hb
  cases o with
  | error e => cases hb
  | ok a =>
    cases hb
    exact hf a (h a rfl)

/-- A computation that fails on some condition. -/
theorem orThrow {c : Prop} [Decidable c] {e : TreeError} {f : β → Except TreeError α} (h : Gives o P) :
    Gives (if c then throw e >>= f else o) P := by
  split
  · intro a ha
    cases ha
  · exact h

theorem mono (h : Gives o P) (hP : ∀ a, P a → P' a) : Gives o P' := fun a ha => hP a (h a ha)

theorem mapM {γ : Type} {xs : List γ} {f : γ → Except TreeError β} {S : γ → β → Prop} (h : ∀ x ∈ xs, Gives (f x) (S x)) :
    Gives (xs.mapM f) (List.Forall₂ S xs) := by
  induction xs with
  | nil => exact .pure .nil
  | cons x xs ih =>
    obtain ⟨hx, hxs⟩ := forall_mem_cons.1 h
    rw [mapM_cons]
    exact .bind hx fun b hb => .bind (ih hxs) fun bs hbs => .pure (.cons hb hbs)

end Gives

/-! ## What is printed and what is spelled -/

/-- A part that is printed is printed as it is spelled. -/
def Agrees (o : Compact.Out) (s : Spelling) : Prop := ∀ p, o = .ok p → s.printed = p

/-- Parts that are all printed are printed as they are spelled. -/
def AgreeAll (os : Except TreeError (List Printed)) (ss : List Spelling) : Prop :=
  ∀ ps, os = .ok ps → ss.map printed = ps

namespace Agrees

theorem ok (h : s.printed = p) : Agrees (.ok p) s :=
  fun _ hp => h.trans (Except.ok.inj hp)

theorem error {e : TreeError} : Agrees (.error e) s := fun _ hp => by cases hp

/-- What is made of a printed part is made of what is spelled. -/
theorem bind {f : Printed → Compact.Out} (h : Agrees o s) (hf : Agrees (f s.printed) t) : Agrees (o >>= f) t :=
  Gives.bind (P := (s.printed = ·)) h fun _ hp => hp ▸ hf

theorem congr (h : Agrees o s) (hs : t.printed = s.printed) : Agrees o t :=
  fun p hp => hs.trans (h p hp)

end Agrees

namespace AgreeAll

theorem nil : AgreeAll (.ok []) [] := fun _ hp => Except.ok.inj hp

variable {os : Except TreeError (List Printed)} {ss : List Spelling}

theorem bind {f : List Printed → Compact.Out}
    (h : AgreeAll os ss) (hf : Agrees (f (ss.map printed)) t) : Agrees (os >>= f) t :=
  Gives.bind (P := (ss.map printed = ·)) h fun _ hp => hp ▸ hf

theorem cons (h : Agrees o s) (hs : AgreeAll os ss) (i : Nat) : AgreeAll (do return (← o) :: (← os)) (s.under i :: ss) := by
  refine Gives.bind (P := (s.printed = ·)) h fun p hp => Gives.bind (P := (ss.map printed = ·)) hs fun ps hps => .pure ?_
  rw [map_cons, printed_under, hp, hps]

end AgreeAll

namespace Spell

open Node

/-- A node is printed as it is spelled, and so are its items if it is a sequence. -/
def Sound (n : Node) : Prop :=
  Agrees (n.fold Compact.algebra) n.spell ∧ ∀ x ∈ n.items, Agrees (x.fold Compact.algebra) x.spell

theorem present_agrees (h : ∀ n ∈ ns, Sound n) (i : Nat) :
    AgreeAll (Compact.present (ns.map (asPart Compact.algebra))) (present i (ns.map (asPart algebra))) := by
  induction ns generalizing i with
  | nil => exact .nil
  | cons n ns ih =>
    obtain ⟨hn, hns⟩ := forall_mem_cons.1 h
    have ih' := ih hns (i + 1)
    unfold Compact.present at ih' ⊢
    cases ha : n.isAbsent with
    | true =>
      have hfilter : (asPart Compact.algebra n).node.isAbsent := ha
      have hspell : (asPart algebra n).node.isAbsent := ha
      rw [map_cons, filter_cons_of_neg (by simp [hfilter]), map_cons, present, if_pos hspell]
      exact ih'
    | false =>
      have hfilter : (asPart Compact.algebra n).node.isAbsent = false := ha
      have hspell : (asPart algebra n).node.isAbsent = false := ha
      rw [map_cons, filter_cons_of_pos (by simp [hfilter]), map_cons, present, if_neg (by simp [hspell]), mapM_cons]
      exact .cons hn.1 ih' i

theorem mapM_agrees {g : Node → Compact.Out} (h : ∀ n ∈ ns, Agrees (g n) n.spell) (i : Nat) :
    AgreeAll (ns.mapM g) (numbered i (ns.map spell)) := by
  induction ns generalizing i with
  | nil => exact .nil
  | cons n ns ih =>
    obtain ⟨hn, hns⟩ := forall_mem_cons.1 h
    rw [mapM_cons]
    exact .cons hn (ih hns (i + 1)) i

theorem every_agrees (h : ∀ n ∈ ns, Sound n) (i : Nat) : AgreeAll (Compact.every (ns.map (asPart Compact.algebra)))
      (numbered i ((ns.map (asPart algebra)).map (·.value))) := by
  unfold Compact.every
  rw [mapM_map, map_map]
  exact mapM_agrees (fun n hn => (h n hn).1) i

/-- The items of a sequence, each printed in the same way. -/
theorem mapM_items_agrees {g : Node → Compact.Out} (h : ∀ x ∈ n.items, Agrees (g x) x.spell) (i : Nat) :
    AgreeAll (n.items.mapM g) (items i (asPart algebra n)) := by
  intro ps hp
  rw [← mapM_agrees h 0 ps hp]
  simp only [items, asPart, map_map]
  exact map_congr_left fun s _ => printed_under s i

theorem items_agrees (h : Sound n) (i : Nat) :
    AgreeAll (Compact.items (asPart Compact.algebra n)) (items i (asPart algebra n)) := by
  unfold Compact.items
  split
  · intro ps hp
    cases hp
  · rw [asPart, mapM_map]
    exact mapM_items_agrees h.2 i

theorem cases_agrees (h : Sound n) (i : Nat) :
    AgreeAll (Compact.cases (asPart Compact.algebra n)) (items i (asPart algebra n)) := by
  unfold Compact.cases
  split
  · intro ps hp
    cases hp
  · rw [asPart, mapM_map]
    exact mapM_items_agrees (fun x hx => Gives.step fun _ _ => h.2 x hx) i

theorem optional_agrees (h : Sound n) {lead : Spelling} (hlead : lead.printed = ⟨text, false⟩) (i : Nat) :
    Agrees (Compact.optional text (asPart Compact.algebra n)) (optional lead i (asPart algebra n)) := by
  have hnode : (asPart Compact.algebra n).node = (asPart algebra n).node := rfl
  unfold Compact.optional optional
  rw [hnode]
  split
  · exact .ok rfl
  · exact h.1.bind (.ok (by simp only [printed_append, printed_under, hlead]; rfl))

theorem arrayItems_agrees (h : ∀ n ∈ ns, Sound n) (i : Nat) :
    Agrees (Compact.arrayItems (ns.map (asPart Compact.algebra))) (arrayItems i (ns.map (asPart algebra))) := by
  induction ns generalizing i with
  | nil => exact .ok rfl
  | cons n ns ih =>
    obtain ⟨hn, hns⟩ := forall_mem_cons.1 h
    have ih' := ih hns (i + 1)
    rw [map_cons, map_cons, Compact.arrayItems, arrayItems]
    have hnode : (asPart Compact.algebra n).node = (asPart algebra n).node := rfl
    have hempty : (ns.map (asPart Compact.algebra)).isEmpty = (ns.map (asPart algebra)).isEmpty := by
      cases ns <;> rfl
    rw [hnode, hempty]
    split
    · exact ih'.bind (.ok (by simp))
    · split
      · exact hn.1.congr (by simp; rfl)
      · exact hn.1.bind (ih'.bind (.ok (by simp; rfl)))

/-- The part of a node with a number, absent if it is asked for in vain. -/
theorem part_eq (a : Algebra α) (parts : List Node) (i : Nat) :
    Algebra.part a.absent (parts.map (asPart a)) i = asPart a (parts.getD i .absent) := by
  unfold Algebra.part
  rw [getD_eq_getElem?_getD, getD_eq_getElem?_getD, getElem?_map]
  cases parts[i]? <;> rfl

variable {parts : List Node}

/-- The parts of a node as the printer and the speller see them. -/
theorem parts_sound (h : ∀ p ∈ parts, Sound p) :
    ∃ P : Nat → Node, (∀ i, Algebra.part Compact.absent (parts.map (asPart Compact.algebra)) i = asPart Compact.algebra (P i)) ∧
      (∀ i, Algebra.part absent (parts.map (asPart algebra)) i = asPart algebra (P i)) ∧
      ∀ i, Sound (P i) := by
  refine ⟨fun i => parts.getD i .absent, part_eq Compact.algebra parts, part_eq algebra parts, fun i => ?_⟩
  simp only [getD_eq_getElem?_getD]
  cases hp : parts[i]? with
  | none => exact ⟨.ok (printed_raw _), by simp [Node.items]⟩
  | some p => exact h p (mem_of_getElem? hp)

@[simp] theorem asPart_node (a : Algebra α) (n : Node) : (asPart a n).node = n := rfl

@[simp] theorem asPart_value (a : Algebra α) (n : Node) : (asPart a n).value = n.fold a := rfl

/-- What is taken from an object is printed behind a dot if it is a name. -/
theorem compact_bracket (a : Algebra Compact.Out) (m : Mark) (x i : Node) :
    Compact.node .bracket m ([x, i].map (asPart a)) = match memberName? i with
      | some name => do return (← x.fold a) ++ "." ++ name
      | none => do return (← x.fold a) ++ "[" ++ (← i.fold a) ++ "]" := rfl

@[simp] theorem fold_algebra (n : Node) : n.fold algebra = n.spell := rfl

@[simp] theorem printed_op (text : String) : (op text).printed = ⟨text, false⟩ := printed_tok _ _

@[simp] theorem printed_operator (text : String) (right : Node) :
    (operator text right).printed = ⟨Compact.operator text right, false⟩ := by
  unfold operator Compact.operator
  split
  · simp
    rfl
  · split
    · simp
      rfl
    · simp

attribute [local simp] Printed.append_assoc Printed.text_text Printed.text_text_append

/-- The pieces of a statement make up its compact form, if this holds of its parts. -/
theorem statement_agrees {k : Kind} (hk : k.isStatement) (m : Mark) (h : ∀ p ∈ parts, Sound p) :
    Agrees (Compact.node k m (parts.map (asPart Compact.algebra))) (node k m (parts.map (asPart algebra))) := by
  obtain ⟨P, hc, hs, hp⟩ := parts_sound h
  have hv := fun i => (hp i).1
  have hlead : empty.printed = ⟨"", false⟩ := rfl
  cases k with simp only [Compact.node, node, hc, hs]
  | block =>
    refine (present_agrees h 0).bind ?_
    rcases present 0 (parts.map (asPart algebra)) with _ | ⟨s, _ | ⟨t, ss⟩⟩ <;> exact .ok (by simp)
  | varStatement =>
    refine Agrees.bind ((present_agrees h 0).bind (.ok (printed_commas _))) ?_
    exact .ok (by simp)
  | emptyStmt | debugger => exact .ok (by simp)
  | exprStmt => exact (hv 0).bind (.ok (by simp))
  | ifStmt =>
    refine (optional_agrees (hp 0) hlead 0).bind ?_
    refine (hv 1).bind ?_
    by_cases ha : (P 2).isAbsent
    · simp only [asPart_node, ha, if_true]
      refine .ok (Printed.ext_iff.2 ⟨?_, rfl⟩)
      change (tok .kwIf "if" ++ (optional .empty 0 (asPart algebra (P 0))).inParens ++ (P 1).spell.under 1).printed.text = _
      simp only [Printed.inParens, printed_append, printed_tok, printed_inParens,
        printed_under, Printed.text_append, ← String.append_assoc]
      rfl
    · simp only [asPart_node, ha]
      refine (hv 2).bind (.ok ?_)
      by_cases hb : (P 1).isSingleBlock <;> simp [hb]
  | doWhile =>
    refine (hv 1).bind ?_
    refine (hv 0).bind ?_
    exact .ok (by simp)
  | whileStmt | withStmt | label =>
    refine (hv 0).bind ?_
    refine (hv 1).bind ?_
    exact .ok (by simp)
  | forStmt =>
    refine (optional_agrees (hp 0) hlead 0).bind ?_
    refine (optional_agrees (hp 1) hlead 1).bind ?_
    refine (optional_agrees (hp 2) hlead 2).bind ?_
    refine (hv 3).bind (.ok ?_)
    by_cases hn : (P 0).needsHeaderSemi <;> simp [hn]
  | forIn =>
    refine (hv 0).bind ?_
    refine (hv 1).bind ?_
    refine (hv 2).bind ?_
    refine .ok ?_
    by_cases hd : (P 0).isVarDecl <;> simp [hd]
  | continueStmt | breakStmt =>
    by_cases ha : (P 0).isAbsent
    · simp only [asPart_node, ha, if_true]
      exact .ok (by simp)
    · simp only [asPart_node, ha, jumpTarget]
      cases (P 0).word with
      | error e => exact .error
      | ok name => exact .ok (by simp)
  | returnStmt =>
    by_cases ha : (P 0).isAbsent
    · simp only [asPart_node, ha, if_true]
      exact .ok (by simp)
    · simp only [asPart_node, ha]
      exact (hv 0).bind (.ok (by simp))
  | throwStmt => exact (hv 0).bind (.ok (by simp))
  | switchStmt =>
    refine (hv 0).bind ?_
    refine Agrees.bind ((cases_agrees (hp 1) 1).bind (.ok (printed_concat _))) ?_
    by_cases ha : (P 2).isAbsent
    · simp only [asPart_node, ha, if_true, optional]
      exact .ok (by simp)
    · simp only [asPart_node, ha, optional]
      cases (P 2).expectDefault with
      | error e => exact .error
      | ok u => exact (hv 2).bind (.ok (by simp))
  | tryStmt =>
    refine (hv 0).bind ?_
    refine (optional_agrees (hp 1) hlead 1).bind ?_
    refine (optional_agrees (hp 2) hlead 2).bind ?_
    exact .ok (by simp)
  | function form =>
    cases form with
    | expression => cases hk
    | declared =>
      refine Agrees.bind ((items_agrees (hp 2) 2).bind (.ok (printed_concat _))) ?_
      refine Agrees.bind (s := gap ++ (P 0).spell) ?_ ?_
      · exact (hv 0).bind (.ok (by simp))
      refine Agrees.bind ((items_agrees (hp 1) 1).bind (.ok (printed_commas _))) ?_
      exact .ok (by simp)
  | _ => cases hk

/-- The pieces of a node make up its compact form, if this holds of its parts. -/
theorem node_agrees (k : Kind) (m : Mark) (h : ∀ p ∈ parts, Sound p) :
    Agrees (Compact.node k m (parts.map (asPart Compact.algebra))) (node k m (parts.map (asPart algebra))) := by
  by_cases hk : k.isStatement
  · exact statement_agrees hk m h
  obtain ⟨P, hc, hs, hp⟩ := parts_sound h
  have hv := fun i => (hp i).1
  cases k with simp only [Compact.node, node, hc, hs]
  | plain | elision => exact .ok (printed_raw _)
  | program => exact (present_agrees h 0).bind (.ok (by simp))
  | varDecl =>
    refine (hv 0).bind ?_
    refine (optional_agrees (hp 1) (printed_tok .assign "=") 1).bind ?_
    exact .ok (by simp)
  | identifier | number | string | boolean | null | this | regex => exact .ok (by simp)
  | array => exact (arrayItems_agrees h 0).bind (.ok (by simp))
  | object =>
    refine Agrees.bind ((every_agrees h 0).bind (.ok (printed_commas _))) ?_
    exact .ok (by simp)
  | getter =>
    refine (hv 0).bind ?_
    refine Agrees.bind ((items_agrees (hp 1) 1).bind (.ok (printed_concat _))) ?_
    exact .ok (by simp [Printed.inParens])
  | setter =>
    by_cases ha : (P 1).isAbsent
    · simp only [asPart_node, ha, if_true]
      exact .error
    by_cases hl : (asPart Compact.algebra (P 1)).items.length > 1
    · simp only [asPart_node, ha, hl, if_true]
      exact .error
    simp only [asPart_node, ha, hl, if_false]
    refine (hv 0).bind ?_
    refine Agrees.bind ((items_agrees (hp 1) 1).bind (.ok (printed_concat _))) ?_
    refine Agrees.bind ((items_agrees (hp 2) 2).bind (.ok (printed_concat _))) ?_
    exact .ok (by simp)
  | newExpr =>
    refine (hv 0).bind ?_
    refine Agrees.bind ((items_agrees (hp 1) 1).bind (.ok (printed_commas _))) ?_
    exact .ok (by simp)
  | call =>
    refine (hv 0).bind ?_
    have hrest : ∀ p ∈ parts.drop 1, Sound p := fun p hm => h p (mem_of_mem_drop hm)
    rw [← map_drop, ← map_drop]
    refine Agrees.bind ((every_agrees hrest 1).bind (.ok (printed_commas _))) ?_
    exact .ok (by simp)
  | bracket =>
    simp only [asPart_node]
    cases memberName? (P 1) with
    | some name => exact (hv 0).bind (.ok (by simp))
    | none =>
      refine (hv 0).bind ?_
      refine (hv 1).bind ?_
      exact .ok (by simp)
  | dot | assign | binary | comma | catchClause =>
    refine (hv 0).bind ?_
    refine (hv 1).bind ?_
    exact .ok (by simp)
  | unary op after =>
    refine (hv 0).bind ?_
    refine .ok ?_
    cases after with
    | true => simp
    | false =>
      simp only [Bool.false_eq_true, if_false]
      split <;> simp
  | conditional =>
    refine (hv 0).bind ?_
    refine (hv 1).bind ?_
    refine (hv 2).bind ?_
    exact .ok (by simp)
  | function form =>
    cases form with
    | declared => exact absurd rfl hk
    | expression =>
      refine Agrees.bind ((items_agrees (hp 2) 2).bind (.ok (printed_concat _))) ?_
      refine (optional_agrees (hp 0) printed_gap 0).bind ?_
      refine Agrees.bind ((items_agrees (hp 1) 1).bind (.ok (printed_commas _))) ?_
      exact .ok (by simp)
  | finallyClause => exact (hv 0).bind (.ok (by simp))
  | caseClause =>
    refine (hv 0).bind ?_
    have hrest : ∀ p ∈ parts.drop 1, Sound p := fun p hm => h p (mem_of_mem_drop hm)
    rw [← map_drop, ← map_drop]
    refine Agrees.bind ((every_agrees hrest 1).bind (.ok (printed_concat _))) ?_
    exact .ok (by simp)
  | defaultClause =>
    refine Agrees.bind ((every_agrees h 0).bind (.ok (printed_concat _))) ?_
    exact .ok (by simp)
  | _ => exact absurd rfl hk

theorem sound (n : Node) : Sound n := by
  induction n using induct with
  | absent => exact ⟨.ok (printed_raw _), by simp [Node.items]⟩
  | seq ns ih =>
    refine ⟨?_, fun x hx => (ih x hx).1⟩
    unfold spell
    rw [fold_seq, fold_seq]
    refine .ok ?_
    simp [algebra]
    rfl
  | node k m parts ih =>
    refine ⟨?_, by simp [Node.items]⟩
    unfold spell
    rw [fold_node, fold_node]
    exact node_agrees k m ih

/-! ## The pieces of nodes -/

theorem getElem?_numbered (i : Nat) (ss : List Spelling) (j : Nat) :
    (numbered i ss)[j]? = ss[j]?.map fun s => s.under (i + j) := by
  induction ss generalizing i j with
  | nil => rfl
  | cons s ss ih =>
    cases j with
    | zero => rfl
    | succ j =>
      rw [numbered, getElem?_cons_succ, getElem?_cons_succ, ih]
      congr 2
      funext s
      congr 1
      omega

theorem present_eq_numbered (h : ∀ n ∈ ns, n.isAbsent = false) (i : Nat) :
    present i (ns.map (asPart algebra)) = numbered i (ns.map spell) := by
  induction ns generalizing i with
  | nil => rfl
  | cons n ns ih =>
    obtain ⟨hn, hns⟩ := forall_mem_cons.1 h
    rw [map_cons, present, asPart_node, hn, if_neg (by decide), ih hns, map_cons, numbered]
    rfl

theorem spell_node (k : Kind) (m : Mark) (parts : List Node) :
    (Node.node k m parts).spell = Spell.node k m (parts.map (asPart algebra)) := fold_node _ _ _ _

end Spell

namespace Node

theorem compact_of_fold (h : n.fold Compact.algebra = .ok p) : n.compact = .ok p.text := by
  rw [compact, h]
  rfl

theorem fold_of_compact (h : n.compact = .ok text) : ∃ p, n.fold Compact.algebra = .ok p ∧ p.text = text := by
  unfold compact at h
  cases hf : n.fold Compact.algebra with
  | error e =>
    rw [hf] at h
    cases h
  | ok p =>
    rw [hf] at h
    exact ⟨p, rfl, Except.ok.inj h⟩

/-- The pieces of a tree make up its compact form. -/
theorem compact_eq (h : n.compact = .ok text) : text = Piece.textOf n.spell.pieces := by
  obtain ⟨p, hp, rfl⟩ := fold_of_compact h
  rw [← (Spell.sound n).1 p hp]
  rfl

end Node

end JsMinify
