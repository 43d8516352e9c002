import JsMinify.Proofs.Node.Functions
import JsMinify.Proofs.Parser.Shapes

/-!
# What a walk meets

A walk through a parsed tree meets the parts of nodes and the items of sequences, each before what is below it and in
the order of their numbers. `Node.meets` says which of them: a walk passes through sequences, but for the arguments of a
`newExpr`, and through the block of a `finallyClause`, which it does not meet (`walk_meets`). All that is asked for is
that no accessor lacks its statements.
-/

namespace JsMinify

open List

variable {n x a : Node} {p path : Path} {i j k l : Nat} {t u : Trail} {r : Role} {ns : List Node}

namespace Node

/-- A walk that comes to a node meets this part or item of it. -/
def meets : Node → Node → Bool
  | _, .absent => false
  | .node .finallyClause _ _, _ => false
  | .node .newExpr _ _, _ => true
  | _, .seq _ => false
  | _, .node _ _ _ => true

/-- The node is no accessor whose statements are absent. -/
def hasBody : Node → Bool
  | .node .getter _ [_, .absent] | .node .setter _ [_, _, .absent] => false
  | _ => true

/-- Down a path from a node stands another one, which a walk meets there. -/
def Meets (n : Node) (path : Path) (x : Node) : Prop :=
  ∃ front last above, path = front ++ [last] ∧ n.at? front = some above ∧ n.at? path = some x ∧ above.meets x = true

theorem not_meets_nil : ¬n.Meets [] x := by
  rintro ⟨front, last, -, h, -⟩
  simp at h

theorem meets_cons : n.Meets (l :: path) x ↔
    ∃ a, n.inner[l]? = some a ∧ (path = [] ∧ a = x ∧ n.meets x ∨ a.Meets path x) := by
  constructor
  · rintro ⟨front, last, above, hpath, habove, hx, hm⟩
    obtain ⟨a, ha, hx⟩ := at?_cons_iff.1 hx
    refine ⟨a, ha, ?_⟩
    cases front with
    | nil =>
      obtain ⟨rfl, rfl⟩ := List.cons.inj hpath
      simp only [at?, Option.some.injEq] at habove hx
      exact .inl ⟨rfl, hx, habove ▸ hm⟩
    | cons i front =>
      obtain ⟨rfl, rfl⟩ := List.cons.inj hpath
      rw [at?_cons, ha] at habove
      exact .inr ⟨front, last, above, rfl, habove, hx, hm⟩
  · rintro ⟨a, ha, ⟨rfl, rfl, hm⟩ | ⟨front, last, above, rfl, habove, hx, hm⟩⟩
    · exact ⟨[], l, n, rfl, by simp [at?], by simp [at?_cons, ha, at?], hm⟩
    · exact ⟨l :: front, last, above, rfl, by rw [at?_cons, ha]; exact habove, by rw [at?_cons, ha]; exact hx, hm⟩

end Node

open Node

/-- A walk below a node at the end of a path, which was not stopped: it met, in order, what is to be met from part `i` of
the node up to part `j`. -/
structure Walked (n : Node) (p : Path) (i j : Nat) (t : Trail) : Prop where
  stop : t.stop = none
  ordered : t.seen.Pairwise (·.1 < ·.1)
  met : ∀ q x, (q, x) ∈ t.seen ↔ ∃ l path, q = p ++ l :: path ∧ i ≤ l ∧ l < j ∧ n.Meets (l :: path) x

/-- A walk to all nodes. -/
def Walk.all : Algebra Walk.Out := Walk.algebra fun _ => true

/-- The walk below a node meets all that is to be met, wherever the node stands. -/
def Covered (n : Node) : Prop := ∀ p, Walked n p 0 n.inner.length (n.fold Walk.all p)

/-- In a sequence of nodes none is passed over. -/
theorem Walk.fold_seq (h : ∀ x ∈ ns, x.isAbsent = false) (p : Path) :
    (Node.seq ns).fold Walk.all p = Walk.present (fun _ => true) p 0 (ns.map fun x => (x, x.fold Walk.all)) := by
  rw [Node.fold_seq]
  show Walk.every _ _ _ _ = _
  generalize 0 = i
  induction ns generalizing i with
  | nil => rfl
  | cons x ns ih =>
    obtain ⟨hx, hrest⟩ := forall_mem_cons.1 h
    simp only [map_cons, Walk.every, Walk.present, hx, ih hrest, Bool.false_eq_true, if_false]

namespace Walked

theorem nil : Walked n p i i .nil :=
  ⟨rfl, .nil, fun q x => ⟨(absurd · not_mem_nil), fun ⟨l, path, _, h, h', _⟩ => by omega⟩⟩

/-- One walk after another. -/
theorem append (ht : Walked n p i j t) (hu : Walked n p j k u) (hij : i ≤ j) (hjk : j ≤ k) : Walked n p i k (t ++ u) := by
  have happend : t ++ u = ⟨t.seen ++ u.seen, u.stop⟩ := if_neg (by simp [ht.stop])
  rw [happend]
  refine ⟨hu.stop, pairwise_append.2 ⟨ht.ordered, hu.ordered, ?_⟩, fun q x => ?_⟩
  · rintro ⟨q, x⟩ hq ⟨q', x'⟩ hq'
    obtain ⟨l, path, rfl, -, hl, -⟩ := (ht.met q x).1 hq
    obtain ⟨l', path', rfl, hl', -, -⟩ := (hu.met q' x').1 hq'
    exact append_left_lt (cons_lt_cons_iff.2 (.inl (by omega)))
  · rw [mem_append, ht.met, hu.met]
    constructor
    · rintro (⟨l, path, hq, hi, hj, hm⟩ | ⟨l, path, hq, hi, hj, hm⟩)
      · exact ⟨l, path, hq, hi, by omega, hm⟩
      · exact ⟨l, path, hq, by omega, hj, hm⟩
    · rintro ⟨l, path, hq, hi, hk, hm⟩
      by_cases hl : l < j
      · exact .inl ⟨l, path, hq, hi, hl, hm⟩
      · exact .inr ⟨l, path, hq, by omega, hk, hm⟩

/-- What is to be met from a part up to the next one: the part itself, and what is below it. -/
theorem met_part (h : n.inner[i]? = some a) (q : Path) (x : Node) :
    (∃ l path, q = p ++ l :: path ∧ i ≤ l ∧ l < i + 1 ∧ n.Meets (l :: path) x) ↔
      (q = p ++ [i] ∧ x = a) ∧ n.meets a ∨ ∃ path, q = p ++ [i] ++ path ∧ a.Meets path x := by
  constructor
  · rintro ⟨l, path, rfl, hi, hl, hm⟩
    obtain rfl : l = i := by omega
    obtain ⟨b, hb, hm⟩ := meets_cons.1 hm
    cases h.symm.trans hb
    rcases hm with ⟨rfl, rfl, hm⟩ | hm
    · exact .inl ⟨⟨rfl, rfl⟩, hm⟩
    · exact .inr ⟨path, by simp, hm⟩
  · rintro (⟨⟨rfl, rfl⟩, hm⟩ | ⟨path, rfl, hm⟩)
    · exact ⟨i, [], rfl, Nat.le_refl i, Nat.lt_succ_self i, meets_cons.2 ⟨_, h, .inl ⟨rfl, rfl, hm⟩⟩⟩
    · exact ⟨i, path, by simp, Nat.le_refl i, Nat.lt_succ_self i, meets_cons.2 ⟨a, h, .inr hm⟩⟩

/-- A part that is absent is passed over. -/
theorem skip (h : n.inner[i]? = some .absent) : Walked n p i (i + 1) .nil := by
  refine ⟨rfl, .nil, fun q x => ⟨(absurd · not_mem_nil), fun hm => ?_⟩⟩
  rcases (met_part h q x).1 hm with ⟨-, hm⟩ | ⟨path, -, hm⟩
  · cases n <;> cases hm
  · cases path with
    | nil => exact absurd hm not_meets_nil
    | cons i path =>
      obtain ⟨a, ha, -⟩ := meets_cons.1 hm
      cases ha

theorem below (ht : Walked n p 0 n.inner.length t) (q : Path) (x : Node) :
    (q, x) ∈ t.seen ↔ ∃ path, q = p ++ path ∧ n.Meets path x := by
  rw [ht.met]
  constructor
  · rintro ⟨l, path, rfl, -, -, hm⟩
    exact ⟨l :: path, rfl, hm⟩
  · rintro ⟨path, rfl, hm⟩
    cases path with
    | nil => exact absurd hm not_meets_nil
    | cons l path =>
      obtain ⟨a, ha, -⟩ := meets_cons.1 hm
      exact ⟨l, path, rfl, Nat.zero_le l, (List.getElem?_eq_some_iff.1 ha).1, hm⟩

/-- A part is passed through: only what is below it is met. -/
theorem pass (h : n.inner[i]? = some a) (hm : n.meets a = false) (ht : Walked a (p ++ [i]) 0 a.inner.length t) :
    Walked n p i (i + 1) t := by
  refine ⟨ht.stop, ht.ordered, fun q x => ?_⟩
  rw [met_part h, ht.below, hm]
  simp

/-- A part is met before what is below it. -/
theorem visit (h : n.inner[i]? = some a) (hm : n.meets a) {below : Walk.Out}
    (ht : Walked a (p ++ [i]) 0 a.inner.length (below (p ++ [i]))) :
    Walked n p i (i + 1) (Walk.visit (fun _ => true) (p ++ [i]) a below) := by
  have hvisit : Walk.visit (fun _ => true) (p ++ [i]) a below =
      ⟨(p ++ [i], a) :: (below (p ++ [i])).seen, (below (p ++ [i])).stop⟩ := rfl
  rw [hvisit]
  refine ⟨ht.stop, pairwise_cons.2 ⟨?_, ht.ordered⟩, fun q x => ?_⟩
  · rintro ⟨q, x⟩ hq
    obtain ⟨l, path, rfl, -⟩ := (ht.met q x).1 hq
    have hlt : p ++ [i] ++ [] < p ++ [i] ++ l :: path := append_left_lt (nil_lt_cons l path)
    rwa [append_nil] at hlt
  · rw [met_part h, mem_cons, ht.below, Prod.mk.injEq, and_iff_left hm]

/-- Parts in a row, of which those that are present are met. -/
theorem present (hns : ∀ j x, ns[j]? = some x → n.inner[i + j]? = some x)
    (h : ∀ x ∈ ns, x.isAbsent = false → n.meets x ∧ Covered x) :
    Walked n p i (i + ns.length) (Walk.present (fun _ => true) p i (ns.map fun x => (x, x.fold Walk.all))) := by
  induction ns generalizing i with
  | nil => exact .nil
  | cons x ns ih =>
    obtain ⟨hx, hrest⟩ := forall_mem_cons.1 h
    have hfirst := hns 0 x rfl
    have hlater : Walked n p (i + 1) (i + 1 + ns.length) _ := ih (i := i + 1) (fun j y hy => by
      rw [Nat.add_right_comm]
      exact hns (j + 1) y hy) hrest
    rw [length_cons, Nat.add_comm ns.length, ← Nat.add_assoc, map_cons, Walk.present]
    refine .append ?_ hlater (by omega) (by omega)
    split
    · next ha =>
      rw [eq_absent ha] at hfirst
      exact .skip hfirst
    · next ha =>
      obtain ⟨hm, hx⟩ := hx (by simpa using ha)
      exact .visit hfirst hm (hx _)

/-- One part, which is met if it is present. -/
theorem one (h : n.inner[i]? = some x) (hx : x.isAbsent = false → n.meets x ∧ Covered x) :
    Walked n p i (i + 1) (Walk.present (fun _ => true) p i [(x, x.fold Walk.all)]) := by
  have hrow (j : Nat) (y : Node) (hy : [x][j]? = some y) : n.inner[i + j]? = some y := by
    cases j with
    | zero => exact h.trans hy
    | succ j => cases hy
  exact present hrow (by simpa using hx)

/-- A sequence is passed through. -/
theorem list (h : n.inner[i]? = some (.seq ns)) (hm : n.meets (.seq ns) = false)
    (hns : ∀ x ∈ ns, x.isAbsent = false) (hc : Covered (.seq ns)) :
    Walked n p i (i + 1) (Walk.present (fun _ => true) (p ++ [i]) 0 (ns.map fun x => (x, x.fold Walk.all))) := by
  rw [← Walk.fold_seq hns]
  exact .pass h hm (hc (p ++ [i]))

end Walked

section Parts

variable {k : Kind} {m : Mark} {parts : List Node}

/-- A part that is no sequence is met, unless the node is a `finallyClause`. -/
theorem Formed.meets_eq_true (h : Formed r x) (ha : x.isAbsent = false) (hr : r.items? = none)
    (hk : (k == .finallyClause) = false) : (Node.node k m parts).meets x := by
  cases h with
  | absent => cases ha
  | seq list => cases hr.symm.trans list
  | node =>
    cases k with
    | finallyClause => cases hk
    | _ => rfl

/-- No part of a node in this shape is a sequence. -/
def Shape.isFlat (s : Shape) : Bool := s.first.all (·.items?.isNone)

theorem Shape.items?_role {s : Shape} (hs : s.isFlat) (i : Nat) : (s.role i).items? = none := by
  rw [Shape.role, getD_eq_getElem?_getD]
  cases hr : s.first[i]? with
  | none => cases s.rest <;> rfl
  | some r => exact Option.isNone_iff_eq_none.1 (all_eq_true.1 hs r (mem_of_getElem? hr))

theorem Kind.isFlat_assign (op : String) : (Kind.assign op).shape.isFlat := by
  obtain ⟨q, -, hshape⟩ := Kind.shape_assign op
  rw [hshape]
  rfl

/-- The parts of a node are as they should be, and the walks below them meet what they should. -/
structure PartsCovered (k : Kind) (parts : List Node) : Prop where
  parted : ∀ (i : Nat) x, parts[i]? = some x → Formed (k.shape.role i) x
  covered : ∀ x ∈ parts, x.isAbsent = false → Covered x

namespace PartsCovered

theorem one (h : PartsCovered k parts) (i : Nat) (hx : parts[i]? = some x) (hr : (k.shape.role i).items? = none)
    (hk : (k == .finallyClause) = false) :
    Walked (.node k m parts) p i (i + 1) (Walk.present (fun _ => true) p i [(x, x.fold Walk.all)]) :=
  .one hx fun ha => ⟨(h.parted i x hx).meets_eq_true ha hr hk, h.covered x (mem_of_getElem? hx) ha⟩

theorem list (h : PartsCovered k parts) (i : Nat) (hx : parts[i]? = some x) (hr : (k.shape.role i).items?.isSome)
    (ha : x.isAbsent = false) (hk : (k == .newExpr) = false) :
    Walked (.node k m parts) p i (i + 1)
      (Walk.present (fun _ => true) (p ++ [i]) 0 (x.items.map fun y => (y, y.fold Walk.all))) := by
  obtain ⟨q, hq⟩ := Option.isSome_iff_exists.1 hr
  have hformed := h.parted i x hx
  obtain ⟨ns, rfl⟩ := hformed.exists_seq hq ha
  refine .list hx ?_ (fun y hy => (hformed.items hq y hy).isAbsent_eq_false) (h.covered _ (mem_of_getElem? hx) rfl)
  cases k with
  | newExpr => cases hk
  | _ => rfl

/-- All parts that are present are met. -/
theorem all (h : PartsCovered k parts) (hm : ∀ x ∈ parts, x.isAbsent = false → (Node.node k m parts).meets x) :
    Walked (.node k m parts) p 0 parts.length
      (Walk.present (fun _ => true) p 0 ((parts.map (asPart Walk.all)).map fun q => (q.node, q.value))) := by
  rw [map_map, ← Nat.zero_add parts.length]
  exact .present (fun j x hx => by rwa [Nat.zero_add]) fun x hx ha => ⟨hm x hx ha, h.covered x hx ha⟩

theorem meets (h : PartsCovered k parts) (hs : k.shape.isFlat) (hk : (k == .finallyClause) = false) :
    ∀ x ∈ parts, x.isAbsent = false → (Node.node k m parts).meets x := by
  intro x hx ha
  obtain ⟨i, hi⟩ := mem_iff_getElem?.1 hx
  exact (h.parted i x hi).meets_eq_true ha (Shape.items?_role hs i) hk

theorem node (h : PartsCovered k parts) (hcount : k.shape.admits parts.length)
    (hb : (Node.node k m parts).hasBody) : Covered (.node k m parts) := by
  intro p
  rw [fold_node]
  cases k with
  | getter =>
    obtain ⟨key, body, rfl⟩ := Shape.parts_two hcount
    cases body with
    | absent => cases hb
    | _ => exact (h.one 0 rfl rfl rfl).append (h.list 1 rfl rfl rfl rfl) (Nat.zero_le 1) (Nat.le_succ 1)
  | setter =>
    obtain ⟨key, params, body, rfl⟩ := Shape.parts_three hcount
    cases body with
    | absent => cases hb
    | _ =>
      have hparams := (h.parted 1 params rfl).isAbsent_of_needed rfl
      exact ((h.one 0 rfl rfl rfl).append (h.list 1 rfl rfl hparams rfl) (Nat.zero_le 1) (Nat.le_succ 1)).append
        (h.list 2 rfl rfl rfl rfl) (Nat.zero_le 2) (Nat.le_succ 2)
  | function form =>
    cases form with
    | declared | expression =>
      obtain ⟨name, params, body, rfl⟩ := Shape.parts_three hcount
      have hparams := (h.parted 1 params rfl).isAbsent_of_needed rfl
      have hbody := (h.parted 2 body rfl).isAbsent_of_needed rfl
      exact ((h.one 0 rfl rfl rfl).append (h.list 1 rfl rfl hparams rfl) (Nat.zero_le 1) (Nat.le_succ 1)).append
        (h.list 2 rfl rfl hbody rfl) (Nat.zero_le 2) (Nat.le_succ 2)
  | switchStmt =>
    obtain ⟨value, cases, default, rfl⟩ := Shape.parts_three hcount
    have hcases := (h.parted 1 cases rfl).isAbsent_of_needed rfl
    exact ((h.one 0 rfl rfl rfl).append (h.list 1 rfl rfl hcases rfl) (Nat.zero_le 1) (Nat.le_succ 1)).append
      (h.one 2 rfl rfl rfl) (Nat.zero_le 2) (Nat.le_succ 2)
  | finallyClause =>
    obtain ⟨block, rfl⟩ := Shape.parts_one hcount
    have hblock := (h.parted 0 block rfl).isAbsent_of_needed rfl
    cases h.parted 0 block rfl with
    | absent => cases hblock
    | seq list => cases list
    | node => exact .pass (i := 0) rfl rfl (h.covered _ mem_cons_self rfl (p ++ [0]))
  | newExpr =>
    refine h.all fun x _ ha => ?_
    cases x <;> first | rfl | cases ha
  | assign op => exact h.all (h.meets (Kind.isFlat_assign op) rfl)
  | _ => exact h.all (h.meets rfl rfl)

end PartsCovered

end Parts

theorem Formed.covered (h : Formed r n) (hb : n.every hasBody) (ha : n.isAbsent = false) : Covered n := by
  induction h with
  | absent => cases ha
  | @seq _ _ ns _ items ih =>
    rw [every_seq, Bool.and_eq_true, all_eq_true] at hb
    have hns : ∀ x ∈ ns, x.isAbsent = false := fun x hx => (items x hx).isAbsent_eq_false
    intro p
    rw [Walk.fold_seq hns]
    refine Nat.zero_add ns.length ▸ .present (n := .seq ns) (fun j x hx => by rwa [Nat.zero_add]) fun x hx hx' => ?_
    refine ⟨?_, ih x hx (hb.2 x hx) hx'⟩
    cases items x hx with
    | absent => cases hx'
    | seq list => cases list
    | node => rfl
  | node _ _ _ count parted ih =>
    rw [every_node, Bool.and_eq_true, all_eq_true] at hb
    refine PartsCovered.node ⟨parted, fun x hx hx' => ?_⟩ count hb.1
    obtain ⟨i, hi⟩ := mem_iff_getElem?.1 hx
    exact ih i x hi (hb.2 x hx) hx'

/-- The walk through a tree meets what is to be met, each once and in the order of the paths. -/
theorem Covered.walk (h : Covered n) :
    ∃ seen, n.walk = .ok seen ∧ seen.Pairwise (·.1 < ·.1) ∧ ∀ path x, (path, x) ∈ seen ↔ n.Meets path x := by
  refine ⟨_, ?_, (h []).ordered, fun path x => ?_⟩
  · rw [Node.walk, Trail.toExcept, trail, show (n.fold (Walk.algebra fun _ => true) []).stop = none from (h []).stop]
    rfl
  · simp [(h []).below]

/-- A walk through a parsed tree in which no accessor lacks its statements meets all nodes below the first, each once and
in the order of their paths, so each before those below it; but for the blocks of `finally` clauses. -/
theorem walk_meets {text : String} {tree : Node} {q : Parser} (h : parse text = (.ok tree, q))
    (hb : tree.every hasBody = true) :
    ∃ seen, tree.walk = .ok seen ∧ seen.Pairwise (·.1 < ·.1) ∧ ∀ path x, (path, x) ∈ seen ↔ tree.Meets path x := by
  have hformed := parse_formed h
  exact (hformed.covered hb hformed.isAbsent_eq_false).walk

/-- The block of a `finally` clause is not met. -/
theorem finally_block_unmet : ∃ tree q seen block, parse "try\x7b\x7dfinally\x7ba;\x7d" = (.ok tree, q) ∧
    tree.every hasBody = true ∧ tree.at? [0, 2, 0] = some block ∧ block.isSingleBlock = true ∧ tree.walk = .ok seen ∧
    seen.Pairwise (·.1 < ·.1) ∧ (∀ path x, (path, x) ∈ seen ↔ tree.Meets path x) ∧ ∀ e ∈ seen, e.1 ≠ [0, 2, 0] := by
  obtain ⟨tree, q, hparse, htest⟩ := exists_of_test "try\x7b\x7dfinally\x7ba;\x7d" (fun tree => tree.every hasBody &&
    (tree.at? [0, 2, 0]).any isSingleBlock && tree.walk.toOption.any (·.all (·.1 != [0, 2, 0]))) (by decide +kernel)
  simp only [Bool.and_eq_true, Option.any_eq_true, all_eq_true, bne_iff_ne] at htest
  obtain ⟨⟨hb, block, hat, hblock⟩, seen, hwalk, hunmet⟩ := htest
  obtain ⟨seen', hwalk', hordered, hmet⟩ := walk_meets hparse hb
  cases (ok_of_toOption hwalk).symm.trans hwalk'
  exact ⟨tree, q, seen, block, hparse, hb, hat, hblock, hwalk', hordered, hmet, hunmet⟩

end JsMinify
