import JsMinify.Node.Edit
import JsMinify.Proofs.Node.Walk

/-!
# Replacing a node

A node of a tree that is tied to the one above it can be replaced. Nodes that a program, a block or a `var` statement
holds are not found and keep their place (`Edit.isFound_eq`); all others make way for the new node, and nothing else
changes. Putting the old node back restores the tree (`replace_replaces_iff`).
-/

namespace JsMinify

open List Option

variable {tree n new new' : Node} {p path : Path} {i : Nat} {r : Role}

namespace Node

/-- The node with nothing in the place of its parts. -/
def hollow : Node → Node
  | .absent => .absent
  | .seq ns => .seq (ns.map fun _ => .absent)
  | .node k m parts => .node k m (parts.map fun _ => .absent)

/-- The node at the end of a path is replaced by another one, and nothing else is changed. -/
structure Replaced (tree : Node) (p : Path) (new out : Node) : Prop where
  here : out.at? p = some new
  elsewhere : ∀ path, ¬p <+: path → (out.at? path).map hollow = (tree.at? path).map hollow

/-- What stands at the end of a path is not held by a program, a block or a `var` statement. -/
def isOpenAt (tree : Node) (p : Path) : Bool :=
  match tree.at? p.dropLast with
  | some (.node .program _ _) | some (.node .block _ _) | some (.node .varStatement _ _) => false
  | _ => true

/-! ## Trees with another node in them -/

theorem inner_replaceAt (new n : Node) (i : Nat) (p : Path) :
    (replaceAt new n (i :: p)).inner = n.inner.modify i fun a => replaceAt new a p := by
  cases n <;> simp [replaceAt, inner]

theorem hollow_replaceAt (new n : Node) (i : Nat) (p : Path) : (replaceAt new n (i :: p)).hollow = n.hollow := by
  cases n <;> simp [replaceAt, hollow, map_const']

theorem replaced_replaceAt (h : (n.at? p).isSome) : Replaced n p new (replaceAt new n p) := by
  induction p generalizing n with
  | nil => exact ⟨by simp [replaceAt, at?], fun path hpath => absurd nil_prefix hpath⟩
  | cons i p ih =>
    rw [at?_cons] at h
    obtain ⟨a, ha⟩ : ∃ a, n.inner[i]? = some a := isSome_iff_exists.1 (isSome_of_isSome_bind h)
    rw [ha] at h
    have below := ih h
    refine ⟨?_, fun path hpath => ?_⟩
    · rw [at?_cons, inner_replaceAt, getElem?_modify_eq, ha]
      exact below.here
    · cases path with
      | nil => simp [at?, hollow_replaceAt]
      | cons j path =>
        rw [at?_cons, at?_cons, inner_replaceAt]
        by_cases hj : i = j
        · subst hj
          rw [getElem?_modify_eq, ha]
          exact below.elsewhere path fun hp => hpath (cons_prefix_cons.2 ⟨rfl, hp⟩)
        · rw [getElem?_modify_ne _ _ hj]

theorem replaceAt_replaceAt (n : Node) (p : Path) : replaceAt new' (replaceAt new n p) p = replaceAt new' n p := by
  induction p generalizing n with
  | nil => simp [replaceAt]
  | cons i p ih => cases n <;> simp [replaceAt, modify_modify_eq, Function.comp_def, ih]

theorem replaceAt_self (h : tree.at? p = some n) : replaceAt n tree p = tree := by
  induction p generalizing tree with
  | nil =>
    rw [at?, some.injEq] at h
    rw [replaceAt, h]
  | cons i p ih =>
    obtain ⟨a, ha, hn⟩ := at?_cons_iff.1 h
    have hsame : ∀ ns : List Node, ns[i]? = some a → ns.modify i (fun x => replaceAt n x p) = ns := fun ns hns => by
      refine ext_getElem? fun j => ?_
      by_cases hj : i = j
      · subst hj
        rw [getElem?_modify_eq, hns, Option.map_eq_map, Option.map_some, ih hn]
      · rw [getElem?_modify_ne _ _ hj]
    cases tree with
    | absent => cases ha
    | seq ns => rw [replaceAt, hsame ns ha]
    | node k m parts => rw [replaceAt, hsame parts ha]

end Node

open Node

/-! ## Replacing what a walk meets -/

theorem Formed.kind_ne_plain {k : Kind} {m : Mark} {parts : List Node} (h : Formed r (.node k m parts)) : k ≠ .plain := by
  rintro rfl
  cases h with
  | @node _ p _ _ _ place takes => cases p <;> cases takes

namespace Kind

/-- The search finds every part of a node, unless it is a program, a block or a `var` statement. -/
theorem finds_part {k : Kind} (hk : k ≠ .plain ∧ k ≠ .program ∧ k ≠ .block ∧ k ≠ .varStatement)
    (hi : k.shape.role i ≠ .nothing) : k.finds [i] := by
  cases k with
  | plain | program | block | varStatement => simp at hk
  | _ => rcases i with _ | _ | _ | _ | i <;> first | rfl | exact absurd rfl hi

/-- The search finds every item of a sequence of parts. -/
theorem finds_item {k : Kind} (hi : (k.shape.role i).items? ≠ none) (j : Nat) : k.finds [i, j] := by
  refine finds_part (k := k) ⟨?_, ?_, ?_, ?_⟩ fun hr => hi (by rw [hr]; rfl) <;>
  · rintro rfl
    exact hi (by cases i <;> rfl)

end Kind

/-- In a parsed tree the items of a sequence are found by the node that holds it. -/
theorem Formed.finds_of_seq {ns : List Node} (h : Formed r n) (hn : n.inner[i]? = some (.seq ns)) (j : Nat) :
    ∃ k m parts, n = .node k m parts ∧ k.finds [i, j] := by
  cases h with
  | absent => cases hn
  | seq list items =>
    obtain ⟨_, _, _, he, -⟩ := (items _ (mem_of_getElem? hn)).exists_node
    cases he
  | @node _ p k m parts _ _ _ _ parted =>
    refine ⟨k, m, parts, rfl, Kind.finds_item ?_ j⟩
    cases parted i _ hn with
    | seq list => rw [list]; exact some_ne_none _

namespace Edit

variable {k : Kind} {m : Mark} {parts : List Node} {e : Edit}

/-- In a parsed tree the search finds all that a walk meets, except what a program, a block or a `var` statement holds. -/
theorem isFound_eq (hf : Formed (.one .program) tree) (hm : tree.Meets p (.node k m parts)) :
    isFound tree p = tree.isOpenAt p := by
  obtain ⟨front, last, above, rfl, habove, hn, -⟩ := hm
  rw [at?_append, habove, Option.bind_some, at?_cons] at hn
  obtain ⟨x, hx, hn⟩ := bind_eq_some_iff.1 hn
  cases hn
  unfold isFound holder? isOpenAt
  simp only [dropLast_concat, habove]
  cases above with
  | absent => cases hx
  | node k' m' parts' =>
    obtain ⟨r, hformed⟩ := hf.at? habove
    have hrole : k'.shape.role last ≠ .nothing := fun hr => by
      cases hr ▸ hformed.part last hx with
      | node place => cases place
    rw [drop_left]
    cases k' with
    | plain => exact absurd rfl hformed.kind_ne_plain
    | program | block | varStatement => cases last <;> rfl
    | _ => exact Kind.finds_part (by simp) hrole
  | seq ns =>
    rcases eq_nil_or_concat' front with rfl | ⟨front, j, rfl⟩
    · obtain ⟨k, m, parts, rfl, -⟩ := hf.exists_node
      cases habove
    · rw [at?_append] at habove
      obtain ⟨a, ha, hseq⟩ := bind_eq_some_iff.1 habove
      obtain ⟨b, hb, hseq⟩ := at?_cons_iff.1 hseq
      cases hseq
      obtain ⟨r, hformed⟩ := hf.at? ha
      obtain ⟨k, m, parts, rfl, hfinds⟩ := hformed.finds_of_seq hb last
      simpa [ha] using hfinds

/-- A tied node that is found makes way for another one. -/
theorem put_of_found (hlinked : e.isLinked p) (hfound : isFound e.tree p) :
    e.put p (.node k m parts) new = .ok { tree := replaceAt new e.tree p, loose := e.loose.map (p :: ·) } := by
  unfold put
  simp only [hlinked, hfound, Bool.not_true, Bool.false_eq_true, if_false, if_true]
  rfl

theorem put_of_not_found (hlinked : e.isLinked p) (hfound : isFound e.tree p = false) :
    e.put p (.node k m parts) new = .ok e := by
  unfold put
  simp only [hlinked, hfound, Bool.not_true, Bool.false_eq_true, if_false]
  rfl

theorem isLinked_tie (tree : Node) (p : Path) : (tie ⟨tree, some [p]⟩ p).isLinked p := by
  have hlong : ∀ i : Nat, (p ++ [i]).isPrefixOf p = false := fun i => by
    rw [← Bool.not_eq_true, isPrefixOf_iff_prefix]
    intro hp
    have := hp.length_le
    rw [length_append, length_singleton] at this
    omega
  unfold tie isLinked
  simp only [Option.map_some, flatMap_singleton, if_true]
  split
  · simp [hlong]
  · rfl

theorem isFound_of_replaced {out : Node} (h : Replaced tree p new out) (hp : p ≠ []) : isFound out p = isFound tree p := by
  have hshort : ∀ path : Path, path.length < p.length → (out.at? path).map hollow = (tree.at? path).map hollow :=
    fun path hlt => h.elsewhere path fun hpath => absurd hpath.length_le (by omega)
  have hpos := length_pos_iff.2 hp
  have habove := hshort p.dropLast (by simp; omega)
  have hover := hshort p.dropLast.dropLast (by simp; omega)
  clear hshort
  unfold isFound holder?
  dsimp only
  generalize out.at? p.dropLast = a, tree.at? p.dropLast = b, out.at? p.dropLast.dropLast = c,
    tree.at? p.dropLast.dropLast = d at habove hover ⊢
  rcases a with _ | ⟨⟨⟩⟩ <;> rcases b with _ | ⟨⟨⟩⟩ <;> simp_all [hollow]
  -- A sequence is held by the node over it.
  rcases c with _ | ⟨⟨⟩⟩ <;> rcases d with _ | ⟨⟨⟩⟩ <;> simp_all [hollow]

end Edit

/-- A tree is parsed, no accessor lacks its statements, and all nodes are tied. A node that a walk meets is replaced by
another one, and nothing else changes, exactly if it is not held by a program, a block or a `var` statement, or both are
the same. There nothing changes at all. Putting the old node back, once the new one is tied, restores the tree. -/
theorem replace_replaces_iff {text : String} {q : Parser} (h : parse text = (.ok tree, q)) (hb : tree.every hasBody = true) :
    ∃ e seen, Edit.link ⟨tree, none⟩ = .ok e ∧ e.tree = tree ∧ tree.walk = .ok seen ∧
      ∀ i p k m parts k' m' parts', seen[i]? = some (p, .node k m parts) → ∃ e', e.replace i (.node k' m' parts') = .ok e' ∧
        (Replaced tree p (.node k' m' parts') e'.tree ↔ tree.isOpenAt p = true ∨ Node.node k' m' parts' = .node k m parts) ∧
        (tree.isOpenAt p = false → e'.tree = tree) ∧
        ∃ e'', (e'.tie p).put p (.node k' m' parts') (.node k m parts) = .ok e'' ∧ e''.tree = tree := by
  have hformed := parse_formed h
  obtain ⟨seen, hwalk, -, hmet⟩ := (hformed.covered hb hformed.isAbsent_eq_false).walk
  refine ⟨⟨tree, some []⟩, seen, by simp [Edit.link, Edit.nodes, hwalk], rfl, hwalk, fun i p k m parts k' m' parts' hi => ?_⟩
  have hm := (hmet p _).1 (mem_of_getElem? hi)
  have hat : tree.at? p = some (.node k m parts) := by
    obtain ⟨_, _, _, -, -, hat, -⟩ := hm
    exact hat
  have hreplace : Edit.replace ⟨tree, some []⟩ i (.node k' m' parts') =
      Edit.put ⟨tree, some []⟩ p (.node k m parts) (.node k' m' parts') := by
    simp [Edit.replace, Edit.node, Edit.nodes, hwalk, hi, Bind.bind, Except.bind, Pure.pure, Except.pure]
  have hfound := Edit.isFound_eq hformed hm
  rw [hreplace]
  cases hkept : tree.isOpenAt p with
  | true =>
    have hreplaced : Replaced tree p (.node k' m' parts') (replaceAt (.node k' m' parts') tree p) :=
      replaced_replaceAt (by rw [hat]; rfl)
    have hp : p ≠ [] := by
      obtain ⟨_, _, _, rfl, -⟩ := hm
      simp
    have hback := (Edit.isFound_of_replaced hreplaced hp).trans (hfound.trans hkept)
    refine ⟨_, Edit.put_of_found rfl (hfound.trans hkept), iff_of_true hreplaced (.inl rfl), nofun, _,
      Edit.put_of_found (Edit.isLinked_tie _ _) hback, ?_⟩
    exact (replaceAt_replaceAt tree p).trans (replaceAt_self hat)
  | false =>
    refine ⟨_, Edit.put_of_not_found rfl (hfound.trans hkept), ⟨fun replaced => .inr ?_, ?_⟩, fun _ => rfl, _,
      Edit.put_of_not_found rfl (hfound.trans hkept), rfl⟩
    · exact Option.some.inj (replaced.here.symm.trans hat)
    · rintro (hcontra | hsame)
      · cases hcontra
      · exact ⟨hat.trans (congrArg some hsame.symm), fun _ _ => rfl⟩

/-- No other node takes the place of a statement of the program, and any takes that of the name in it. -/
theorem statement_kept_name_replaced : ∃ tree q e seen k m parts name, parse "a;" = (.ok tree, q) ∧
    tree.every hasBody = true ∧ Edit.link ⟨tree, none⟩ = .ok e ∧ tree.walk = .ok seen ∧
    seen[0]? = some ([0], .node k m parts) ∧ seen[1]? = some ([0, 0], name) ∧
    (∀ k' m' parts', Node.node k' m' parts' ≠ .node k m parts → ∃ e', e.replace 0 (.node k' m' parts') = .ok e' ∧
      ¬Replaced tree [0] (.node k' m' parts') e'.tree ∧ e'.tree = tree) ∧
    ∀ k' m' parts', ∃ e', e.replace 1 (.node k' m' parts') = .ok e' ∧ Replaced tree [0, 0] (.node k' m' parts') e'.tree := by
  obtain ⟨tree, q, hparse, htest⟩ := exists_of_test "a;" (fun tree => tree.every hasBody && !tree.isOpenAt [0] &&
    tree.isOpenAt [0, 0] && tree.walk.toOption.any fun seen => seen.map (fun x => (x.1, x.2.sort)) =
      [([0], "ExprStatement"), ([0, 0], "Identifier")]) (by decide +kernel)
  simp only [Bool.and_eq_true, Option.any_eq_true, Bool.not_eq_true', decide_eq_true_eq] at htest
  obtain ⟨⟨⟨hb, hclosed⟩, hopen⟩, seen, hwalk, hseen⟩ := htest
  obtain ⟨e, seen', hlink, -, hwalk', hreplace⟩ := replace_replaces_iff hparse hb
  cases (ok_of_toOption hwalk).symm.trans hwalk'
  have hmet : ∀ i p sort, (seen.map fun x => (x.1, x.2.sort))[i]? = some (p, sort) → sort ≠ "NoneType" → sort ≠ "list" →
      ∃ k m parts, seen[i]? = some (p, Node.node k m parts) := fun i p sort hi hnone hlist => by
    rw [getElem?_map, Option.map_eq_some_iff] at hi
    obtain ⟨⟨p, n⟩, hi, he⟩ := hi
    cases he
    cases n with
    | absent => exact absurd rfl hnone
    | seq ns => exact absurd rfl hlist
    | node k m parts => exact ⟨k, m, parts, hi⟩
  obtain ⟨k, m, parts, hfirst⟩ := hmet 0 [0] _ (by rw [hseen]; rfl) (by decide) (by decide)
  obtain ⟨_, _, _, hnext⟩ := hmet 1 [0, 0] _ (by rw [hseen]; rfl) (by decide) (by decide)
  refine ⟨tree, q, e, seen, k, m, parts, _, hparse, hb, hlink, hwalk', hfirst, hnext, fun k' m' parts' hne => ?_,
    fun k' m' parts' => ?_⟩
  · obtain ⟨e', he', hiff, hsame, -⟩ := hreplace 0 _ _ _ _ k' m' parts' hfirst
    exact ⟨e', he', fun hreplaced => absurd (hiff.1 hreplaced) (by simp [hclosed, hne]), hsame hclosed⟩
  · obtain ⟨e', he', hiff, -⟩ := hreplace 1 _ _ _ _ k' m' parts' hnext
    exact ⟨e', he', hiff.2 (.inl hopen)⟩

end JsMinify
