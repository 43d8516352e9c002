import JsMinify.Proofs.Node.Words
import JsMinify.Proofs.Parser.Actions

/-!
# Nodes in parentheses

Only expressions are noted to have stood in parentheses (`parse_enclosed`): the one rule of the grammar that notes
it reads an expression between parentheses.
-/

namespace JsMinify

open Grammar Node

/-- The node is an expression if it stood in parentheses. -/
def Node.isEnclosable : Node → Bool
  | .node k m _ => !m.parens || k.isExpression
  | _ => true

namespace Grammar

/-- What a symbol stands for, with expressions only in parentheses. -/
def Encloses (s : Sym) (v : Value) : Prop := Suits s v ∧ ∀ n, v = .node n → n.every isEnclosable = true

theorem rules_enclose_expressions : ∀ r ∈ rules, r.action = .parens →
    roleAt r.right 1 = some (.one .expression) := by decide +kernel

variable {n : Node}

theorem enclosable_modifyMark (f : Mark → Mark) (hf : ∀ m, (f m).parens = m.parens)
    (h : n.every isEnclosable) : (n.modifyMark f).every isEnclosable := by
  cases n with
  | node k m parts =>
    rw [modifyMark, every_node, isEnclosable, hf]
    rwa [every_node] at h
  | _ => exact h

/-- What is built from trees with expressions only in parentheses is such a tree. -/
theorem enclosable_congruent :
    Congruent (fun n n' => n.every isEnclosable = true ∧ n = n') fun _ m m' => m.parens = false ∧ m = m' where
  absent := ⟨rfl, rfl⟩
  seq h := by
    rw [List.forall₂_and_left, List.forall₂_eq_eq_eq] at h
    exact ⟨by simpa [isEnclosable] using h.1, congrArg seq h.2⟩
  node hm h := by
    rw [List.forall₂_and_left, List.forall₂_eq_eq_eq] at h
    exact ⟨by simpa [isEnclosable, hm.1] using h.1, by rw [hm.2, h.2]⟩
  items h := (List.forall₂_and_left _ _).2 ⟨every_items _ h.1, by rw [h.2, List.forall₂_eq_eq_eq]⟩
  asCandidate h := ⟨enclosable_modifyMark _ (by intro; rfl) h.1, congrArg asCandidate h.2⟩
  asExpression h := ⟨enclosable_modifyMark _ (by intro; rfl) h.1, congrArg (modifyMark _) h.2⟩

variable {args : List Item}

theorem Encloses.arg {right : List Sym} (h : ItemsHold Encloses right args) (i : Nat)
    (hn : (Grammar.arg args i).value = .node n) : n.every isEnclosable := by
  induction h generalizing i with
  | nil =>
    cases hn
    rfl
  | cons first _ ih =>
    cases i with
    | zero => exact first.2 n hn
    | succ i => exact ih i hn

theorem Rule.run_encloses {r : Rule} (hr : r ∈ rules) (h : ItemsHold Encloses r.right args) :
    Encloses (.n r.left) (r.action.run args) := by
  have hsuits : ItemsHold Suits r.right args := h.imp fun _ _ hi => hi.1
  have hargs : ∀ i n, (arg args i).value = .node n → n.every isEnclosable := fun i n hn => Encloses.arg h i hn
  have hnodes : ∀ i, (nodeAt args i).every isEnclosable := by
    intro i
    unfold nodeAt
    split
    · next n hn => exact hargs i n hn
    · rfl
  refine ⟨Rule.run_suits hr hsuits, fun n hn => ?_⟩
  refine Action.run_congruent (V := fun v _ => ∀ n, v = .node n → n.every isEnclosable = true) enclosable_congruent
    (fun i => ⟨hnodes i, rfl⟩) (fun _ => rfl) (fun _ _ _ => ⟨rfl, rfl⟩) (fun ha => ⟨?_, rfl⟩) hargs
    (fun h n hn => ?_) n hn
  · have hformed := (node_at hsuits (rules_enclose_expressions r hr ha)).2
    have hbelow := hnodes 1
    generalize nodeAt args 1 = x at hformed hbelow
    obtain ⟨k, m, parts, rfl, takes, -⟩ := hformed.exists_node
    rw [every_node, Bool.and_eq_true] at hbelow
    have htakes : k.isExpression := by cases k <;> exact takes
    rw [inParens, modifyMark, every_node, hbelow.2, isEnclosable, htakes]
    simp
  · cases hn
    exact h.1

end Grammar

/-- Only expressions of a parsed tree stood in parentheses. -/
theorem parse_enclosed {text : String} {tree : Node} {p : Parser} (h : parse text = (.ok tree, p)) :
    tree.every isEnclosable :=
  (parse_keeps (P := Encloses) h (fun t ht => ⟨⟨t, rfl, List.mem_singleton_self _, ht⟩, nofun⟩)
    fun _ hr _ hitems => Rule.run_encloses hr hitems).2 tree rfl

end JsMinify
