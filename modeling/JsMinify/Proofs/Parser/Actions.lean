import JsMinify.Parser
import Mathlib.Data.List.Forall2

/-!
# What actions keep

A relation between trees that is kept where nodes are put together (`Node.Congruent`) holds between what an action
builds from items that are related (`Action.run_congruent`).
-/

namespace JsMinify

open List

variable {α β : Type} {xs : List α}

theorem forall₂_flatMap {γ : Type} {R : β → γ → Prop} {f : α → List β} {g : α → List γ}
    (h : ∀ x ∈ xs, Forall₂ R (f x) (g x)) : Forall₂ R (xs.flatMap f) (xs.flatMap g) := by
  induction xs with
  | nil => exact .nil
  | cons x xs ih =>
    obtain ⟨hx, hxs⟩ := forall_mem_cons.1 h
    exact rel_append hx (ih hxs)

theorem map_eq_iff_forall₂ {f : α → β} {ys : List β} : xs.map f = ys ↔ Forall₂ (fun x y => f x = y) xs ys := by
  rw [← forall₂_map_left_iff (R := Eq), forall₂_eq_eq_eq]

theorem forall₂_arg {P : α → Grammar.Item → Prop} {args : List Grammar.Item}
    (h : Forall₂ P xs args) {i : Nat} {x : α} (hx : xs[i]? = some x) : P x (Grammar.arg args i) := by
  induction h generalizing i with
  | nil => cases hx
  | cons first _ ih =>
    cases i with
    | zero =>
      cases hx
      exact first
    | succ i => exact ih hx

/-- A relation between trees that is kept where they are put together from parts, with related marks. -/
structure Node.Congruent (R : Node → Node → Prop) (M : Kind → Mark → Mark → Prop) : Prop where
  absent : R .absent .absent
  seq : ∀ {ns ns'}, Forall₂ R ns ns' → R (.seq ns) (.seq ns')
  node : ∀ {k m m' ps ps'}, M k m m' → Forall₂ R ps ps' → R (.node k m ps) (.node k m' ps')
  items : ∀ {n n'}, R n n' → Forall₂ R n.items n'.items
  asCandidate : ∀ {n n'}, R n n' → R n.asCandidate n'.asCandidate
  asExpression : ∀ {n n'}, R n n' → R (n.modifyMark fun m => { m with candidate := true, inExpr := true })
    (n'.modifyMark fun m => { m with candidate := true, inExpr := true })

namespace Grammar

/-- The slot gives one part. -/
def Slot.isSingle : Slot → Bool
  | .items _ => false
  | _ => true

variable {s : Slot}

theorem Slot.fill_single (h : s.isSingle) (args : List Item) : ∃ n, s.fill args = [n] := by
  cases s with
  | items i => cases h
  | _ => exact ⟨_, rfl⟩

/-- The positions whose lines a slot takes. -/
def Slot.lines : Slot → List Nat
  | .leaf _ i | .decl i | .declInit i _ | .vars i => [i]
  | _ => []

/-- The positions whose lines an action takes. -/
def Action.lines : Action → List Nat
  | .seq slots => slots.flatMap Slot.lines
  | .slot s => s.lines
  | .make _ line slots => line :: slots.flatMap Slot.lines
  | .operator _ _ slots => 0 :: slots.flatMap Slot.lines
  | _ => []

theorem rules_lines : ∀ r ∈ rules, r.action.lines.all (· < r.right.length) := by decide +kernel

section

variable {R : Node → Node → Prop} {M : Kind → Mark → Mark → Prop} {args args' : List Item} (hR : Node.Congruent R M)
  (hnode : ∀ i, R (nodeAt args i) (nodeAt args' i)) (htext : ∀ i, textAt args i = textAt args' i)

include hR hnode htext

theorem Slot.fill_congruent (hmark : ∀ i ∈ s.lines, ∀ k, M k (markAt args i) (markAt args' i)) :
    Forall₂ R (s.fill args) (s.fill args') := by
  have hname : ∀ i, R (nodeAt args i).asCandidate (nodeAt args' i).asCandidate := fun i => hR.asCandidate (hnode i)
  cases s with
  | nothing => exact .cons hR.absent .nil
  | part i => exact .cons (hnode i) .nil
  | name i => exact .cons (hname i) .nil
  | items i => exact hR.items (hnode i)
  | list is => exact .cons (hR.seq (forall₂_flatMap fun i _ => hR.items (hnode i))) .nil
  | names i => exact .cons (hR.seq (rel_map (fun _ _ hn => hR.asCandidate hn) (hR.items (hnode i)))) .nil
  | leaf form i =>
    rw [fill, fill, htext]
    exact .cons (hR.node (hmark i (mem_singleton_self i) _) .nil) .nil
  | decl i => exact .cons (hR.node (hmark i (mem_singleton_self i) _) (.cons (hname i) (.cons hR.absent .nil))) .nil
  | declInit i j => exact .cons (hR.node (hmark i (mem_singleton_self i) _) (.cons (hname i) (.cons (hnode j) .nil))) .nil
  | vars i => exact .cons (hR.node (hmark i (mem_singleton_self i) _) (hR.items (hnode i))) .nil

/-- What an action builds from related items is related. -/
theorem Action.run_congruent {a : Action} (hmark : ∀ i ∈ a.lines, ∀ k, M k (markAt args i) (markAt args' i))
    (hparens : a = .parens → R (nodeAt args 1).inParens (nodeAt args' 1).inParens) {V : Value → Value → Prop}
    (hpass : ∀ i, V (arg args i).value (arg args' i).value) (hvalue : ∀ {n n'}, R n n' → V (.node n) (.node n')) :
    V (a.run args) (a.run args') := by
  have hfills : ∀ slots : List Slot, (∀ i ∈ slots.flatMap Slot.lines, ∀ k, M k (markAt args i) (markAt args' i)) →
      Forall₂ R (slots.flatMap (Slot.fill args)) (slots.flatMap (Slot.fill args')) := by
    intro slots hlines
    exact forall₂_flatMap fun s hs => Slot.fill_congruent hR hnode htext fun i hi => hlines i (mem_flatMap.2 ⟨s, hs, hi⟩)
  cases a with
  | pass i => exact hpass i
  | absent => exact hvalue hR.absent
  | seq slots => exact hvalue (hR.seq (hfills slots hmark))
  | slot s =>
    have hfill := Slot.fill_congruent hR hnode htext hmark
    refine hvalue ?_
    generalize s.fill args = xs at hfill
    generalize s.fill args' = ys at hfill
    cases hfill with
    | nil => exact hR.absent
    | cons first _ => exact first
  | make k line slots =>
    obtain ⟨hline, hlines⟩ := forall_mem_cons.1 hmark
    exact hvalue (hR.node (hline _) (hfills slots hlines))
  | operator form op slots =>
    obtain ⟨hline, hlines⟩ := forall_mem_cons.1 hmark
    rw [run, run, htext]
    exact hvalue (hR.node (hline _) (hfills slots hlines))
  | nameExpr => exact hvalue (hR.asExpression (hnode 0))
  | parens => exact hvalue (hparens rfl)

end

end Grammar

end JsMinify
