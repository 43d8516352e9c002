import JsMinify.Proofs.Node.Names
import JsMinify.Proofs.Parser.Actions
import JsMinify.Proofs.Parser.Complete

/-!
# Trees without lines

`Node.strip` drops from a tree what its printed form does not show: the lines, and the parentheses of nodes of
some kinds. The rules of the grammar do not look at either, so they build the same from the same up to them
(`strip_congruence`).
-/

namespace JsMinify

open List Node

namespace Node

/-- A mark without its line, and without the parentheses of a kind that does not show them. -/
def stripMark (shows : Kind → Bool) (k : Kind) (m : Mark) : Mark := { m with line := 0, parens := m.parens && shows k }

/-- Every mark is stripped. -/
def stripped (shows : Kind → Bool) : Algebra Node where
  absent := .absent
  seq := fun ns => .seq (ns.map (·.2))
  node := fun k m parts => .node k (stripMark shows k m) (parts.map (·.value))

/-- The same tree without lines, and without parentheses that are not shown. -/
def strip (shows : Kind → Bool) (n : Node) : Node := n.fold (stripped shows)

variable (shows : Kind → Bool) {n n' : Node}

@[simp] theorem strip_absent : absent.strip shows = absent := rfl

@[simp] theorem strip_seq (ns : List Node) : (seq ns).strip shows = seq (ns.map (strip shows)) := by
  simp [strip, fold_seq, stripped]

@[simp] theorem strip_node (k : Kind) (m : Mark) (parts : List Node) :
    (node k m parts).strip shows = node k (stripMark shows k m) (parts.map (strip shows)) := by
  simp [strip, fold_node, stripped, asPart]

theorem strip_items (n : Node) : (n.strip shows).items = n.items.map (strip shows) := by
  cases n with
  | absent => rfl
  | seq ns => rw [strip_seq, items, items]
  | node k m parts =>
    rw [strip_node]
    rfl

/-- What is done to a mark can be done to a stripped one. -/
theorem strip_modifyMark {f : Mark → Mark} (hf : ∀ k m, stripMark shows k (f m) = stripMark shows k (f (stripMark shows k m)))
    (h : n.strip shows = n'.strip shows) : (n.modifyMark f).strip shows = (n'.modifyMark f).strip shows := by
  cases n with
  | absent | seq ns => cases n' <;> simp_all [modifyMark]
  | node k m parts =>
    cases n' with
    | absent | seq ns => simp at h
    | node k' m' parts' =>
      simp only [strip_node, node.injEq] at h
      obtain ⟨rfl, hm, hparts⟩ := h
      simp only [modifyMark, strip_node, hf k m, hf k m', hm, hparts]

theorem strip_inParens (h : n.strip shows = n'.strip shows) : n.inParens.strip shows = n'.inParens.strip shows :=
  strip_modifyMark shows (fun k m => by simp [stripMark]) h

/-- What is built from the same trees is the same, up to lines and parentheses that are not shown. -/
theorem strip_congruent : Congruent (fun n n' => n.strip shows = n'.strip shows) fun k m m' =>
    stripMark shows k m = stripMark shows k m' where
  absent := rfl
  seq h := by rw [strip_seq, strip_seq, map_eq_iff_forall₂.2 (forall₂_map_right_iff.2 h)]
  node hm h := by rw [strip_node, strip_node, hm, map_eq_iff_forall₂.2 (forall₂_map_right_iff.2 h)]
  items h := by
    rw [← forall₂_map_right_iff, ← map_eq_iff_forall₂, ← strip_items, ← strip_items, h]
  asCandidate h := strip_modifyMark shows (fun k m => by simp [stripMark]) h
  asExpression h := strip_modifyMark shows (fun k m => by simp [stripMark]) h

end Node

namespace Grammar

variable (shows : Kind → Bool)

def Value.strip : Value → Value
  | .token t => .token { t with line := 0, pos := 0 }
  | .node n => .node (n.strip shows)

variable {args args' : List Item}
  (h : List.Forall₂ (fun i j : Item => i.value.strip shows = j.value.strip shows) args args')

include h

theorem arg_strip (i : Nat) : (arg args i).value.strip shows = (arg args' i).value.strip shows := by
  induction h generalizing i with
  | nil => rfl
  | cons first _ ih =>
    cases i with
    | zero => exact first
    | succ i => exact ih i

theorem nodeAt_strip (i : Nat) : (nodeAt args i).strip shows = (nodeAt args' i).strip shows := by
  have hi := arg_strip shows h i
  unfold nodeAt
  cases hv : (arg args i).value <;> cases hw : (arg args' i).value <;> simp_all [Value.strip]

theorem textAt_strip (i : Nat) : textAt args i = textAt args' i := by
  have hi := arg_strip shows h i
  unfold textAt
  cases hv : (arg args i).value <;> cases hw : (arg args' i).value <;> simp_all [Value.strip]

/-- An action builds the same from the same items, up to lines and parentheses that are not shown. -/
theorem Action.run_strip (a : Action) : (a.run args).strip shows = (a.run args').strip shows :=
  run_congruent (V := fun v w => v.strip shows = w.strip shows) (strip_congruent shows) (nodeAt_strip shows h)
    (textAt_strip shows h) (fun _ _ _ => rfl) (fun _ => strip_inParens shows (nodeAt_strip shows h 1)) (arg_strip shows h) (congrArg Value.node)

omit h

/-- The rules do not look at lines and parentheses. -/
theorem strip_congruence : Congruence fun v w => v.strip shows = w.strip shows where
  token t u hword := by
    obtain ⟨hkind, htext⟩ := Prod.mk.inj hword
    simp only [Value.strip, hkind, htext]
  rule r _ _ _ hitems := Action.run_strip shows hitems r.action

end Grammar

end JsMinify
