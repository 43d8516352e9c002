import JsMinify.Proofs.Node.Faultless

/-!
# Trees with other names and marks

`Node.relabel` gives every node of a tree another kind and mark; renaming and dropping the notes on scopes are both
such. A relabelling that changes no more of a kind than its name (`Renames`) keeps the shape of a tree and its
defects. `Node.blank` leaves the names of a tree out; a tree whose names have no parts is determined by its names and
by what is left (`eq_of_blank_of_names`).
-/

namespace JsMinify

open List

variable {n n' : Node} {k k' : Kind}

/-- The kind with another name, if it is a name. -/
def Kind.rename (f : String → String) : Kind → Kind
  | .identifier x => .identifier (f x)
  | k => k

def Kind.blank (k : Kind) : Kind := k.rename fun _ => ""

namespace Kind

@[simp] theorem blank_rename (f : String → String) (k : Kind) : (k.rename f).blank = k.blank := by
  cases k <;> rfl

/-- Kinds that differ by their names only. -/
theorem eq_of_blank (h : k'.blank = k.blank) : k' = k ∨ ∃ x y, k = .identifier x ∧ k' = .identifier y := by
  cases k with
  | identifier x =>
    cases k' with
    | identifier y => exact .inr ⟨x, y, rfl, rfl⟩
    | _ => cases h
  | _ =>
    cases k' with
    | identifier y => cases h
    | _ => exact .inl h

theorem shape_of_blank (h : k'.blank = k.blank) : k'.shape = k.shape := by
  obtain rfl | ⟨x, y, rfl, rfl⟩ := eq_of_blank h <;> rfl

theorem takes_of_blank (h : k'.blank = k.blank) (p : Place) : p.takes k' = p.takes k := by
  obtain rfl | ⟨x, y, rfl, rfl⟩ := eq_of_blank h
  · rfl
  · cases p <;> rfl

theorem bindsNames_of_blank (h : k'.blank = k.blank) : Node.bindsNames k' = Node.bindsNames k := by
  obtain rfl | ⟨x, y, rfl, rfl⟩ := eq_of_blank h <;> rfl

end Kind

namespace Node

/-- A new kind and mark for the nodes of a kind with a mark. -/
abbrev Relabelling := Kind → Mark → Kind × Mark

/-- Trees with other kinds and marks. -/
def relabelled (f : Relabelling) : Algebra Node where
  absent := .absent
  seq := fun ns => .seq (ns.map (·.2))
  node := fun k m parts => .node (f k m).1 (f k m).2 (parts.map (·.value))

/-- The tree with another kind and mark for each node. -/
def relabel (f : Relabelling) (n : Node) : Node := n.fold (relabelled f)

section

variable (f g : Relabelling)

@[simp] theorem relabel_absent : absent.relabel f = absent := rfl

@[simp] theorem relabel_seq (ns : List Node) : (seq ns).relabel f = seq (ns.map (relabel f)) := by
  rw [relabel, fold_seq]
  exact congrArg seq map_map

@[simp] theorem relabel_node (k : Kind) (m : Mark) (parts : List Node) :
    (node k m parts).relabel f = node (f k m).1 (f k m).2 (parts.map (relabel f)) := by
  rw [relabel, fold_node]
  exact congrArg _ map_map

theorem relabel_relabel (n : Node) : (n.relabel f).relabel g = n.relabel fun k m => g (f k m).1 (f k m).2 := by
  induction n using induct with
  | absent => rfl
  | seq ns ih =>
    rw [relabel_seq, relabel_seq, relabel_seq, map_map]
    exact congrArg seq (map_congr_left ih)
  | node k m parts ih =>
    rw [relabel_node, relabel_node, relabel_node, map_map]
    exact congrArg _ (map_congr_left ih)

theorem relabel_id (n : Node) : n.relabel (fun k m => (k, m)) = n := by
  induction n using induct with
  | absent => rfl
  | seq ns ih => rw [relabel_seq, map_congr_left ih, map_id']
  | node k m parts ih => rw [relabel_node, map_congr_left ih, map_id']

@[simp] theorem isAbsent_relabel (n : Node) : (n.relabel f).isAbsent = n.isAbsent := by
  cases n <;> simp [isAbsent]

@[simp] theorem items_relabel (n : Node) : (n.relabel f).items = n.items.map (relabel f) := by
  cases n <;> simp [items]

theorem getD_relabel (parts : List Node) (i : Nat) :
    (parts.map (relabel f)).getD i .absent = (parts.getD i .absent).relabel f := by
  rw [getD_eq_getElem?_getD, getD_eq_getElem?_getD, getElem?_map]
  cases parts[i]? <;> rfl

end

theorem relabel_eq_absent {f : Relabelling} (h : n.relabel f = .absent) : n = .absent := by
  cases n with
  | absent => rfl
  | _ => simp at h

theorem relabel_eq_seq {f : Relabelling} {ns : List Node} (h : n.relabel f = .seq ns) :
    ∃ xs, n = .seq xs ∧ ns = xs.map (relabel f) := by
  cases n with
  | seq xs => exact ⟨xs, rfl, by simpa using h.symm⟩
  | _ => simp at h

theorem rename_eq_relabel (f : String → Mark → String) (n : Node) :
    n.rename f = n.relabel fun k m => (k.rename fun x => f x m, m) := by
  rw [rename, relabel]
  congr 1
  rw [Binding.renamed, relabelled, Algebra.mk.injEq]
  refine ⟨rfl, rfl, ?_⟩
  funext k m parts
  cases k <;> rfl

theorem forgetScopes_eq_relabel (n : Node) : n.forgetScopes = n.relabel fun k m => (k, { m with scope := none }) := rfl

theorem renamed_eq_relabel (n : Node) (f : String → Mark → String) :
    (n.rename f).forgetScopes = n.relabel fun k m => (k.rename fun x => f x m, { m with scope := none }) := by
  rw [rename_eq_relabel, forgetScopes_eq_relabel, relabel_relabel]

def blank (n : Node) : Node := n.rename fun _ _ => ""

theorem blank_eq_relabel (n : Node) : n.blank = n.relabel fun k m => (k.blank, m) := rename_eq_relabel _ n

/-- Renaming keeps everything but the names. -/
theorem blank_renamed (n : Node) (f : String → Mark → String) : (n.rename f).forgetScopes.blank = n.forgetScopes.blank := by
  rw [renamed_eq_relabel, forgetScopes_eq_relabel, blank_eq_relabel, blank_eq_relabel, relabel_relabel, relabel_relabel]
  simp only [Kind.blank_rename]

@[simp] theorem blank_absent : absent.blank = absent := rfl

@[simp] theorem blank_seq (ns : List Node) : (seq ns).blank = seq (ns.map blank) := by
  rw [blank_eq_relabel, relabel_seq]
  exact congrArg seq (map_congr_left fun n _ => (blank_eq_relabel n).symm)

@[simp] theorem blank_identifier (x : String) (m : Mark) : (node (.identifier x) m []).blank = node (.identifier "") m [] := by
  rw [blank_eq_relabel, relabel_node]
  rfl

/-- A node that is no name has the parts without their names. -/
theorem blank_node (hk : ∀ x, k ≠ .identifier x) (m : Mark) (parts : List Node) :
    (node k m parts).blank = node k m (parts.map blank) :=
  rename_node hk _ m parts

/-- A relabelling changes no more of a kind than its name. -/
def Renames (f : Relabelling) : Prop := ∀ k m, (f k m).1.blank = k.blank

section

variable {f : Relabelling}

theorem every_relabel {p : Node → Bool} (hp : ∀ n, p (n.relabel f) = p n) (n : Node) : (n.relabel f).every p = n.every p := by
  have hall : ∀ ns : List Node, (∀ n ∈ ns, (n.relabel f).every p = n.every p) →
      (ns.map (relabel f)).all (every p) = ns.all (every p) := fun ns ih => by
    rw [Bool.eq_iff_iff, all_map, all_eq_true, all_eq_true]
    exact forall₂_congr fun n hn => by rw [Function.comp_apply, ih n hn]
  induction n using induct with
  | absent => rfl
  | seq ns ih =>
    have hown := hp (seq ns)
    rw [relabel_seq] at hown ⊢
    rw [every_seq, every_seq, hown, hall ns ih]
  | node k m parts ih =>
    have hown := hp (node k m parts)
    rw [relabel_node] at hown ⊢
    rw [every_node, every_node, hown, hall parts ih]

theorem Renames.isDefective_relabel (hf : Renames f) (n : Node) : (n.relabel f).isDefective = n.isDefective := by
  cases n with
  | node k m parts =>
    rw [relabel_node]
    obtain hk | ⟨x, y, hx, hy⟩ := Kind.eq_of_blank (hf k m)
    · rw [hk]
      cases k with
      | getter => simp only [isDefective, getD_relabel, isAbsent_relabel]
      | setter => simp only [isDefective, getD_relabel, isAbsent_relabel, items_relabel, length_map]
      | _ => rfl
    · rw [hy, hx]
      rfl
  | _ => simp [isDefective]

theorem Renames.isFaultless_relabel (hf : Renames f) (n : Node) : (n.relabel f).isFaultless = n.isFaultless :=
  every_relabel (fun n => by rw [hf.isDefective_relabel]) n

end

/-! ## Trees that differ by their names -/

mutual

def same : Node → Node → Bool
  | .absent, .absent => true
  | .seq ns, .seq ns' => sameItems ns ns'
  | .node k m parts, .node k' m' parts' => k = k' && m = m' && sameItems parts parts'
  | _, _ => false

def sameItems : List Node → List Node → Bool
  | [], [] => true
  | n :: ns, n' :: ns' => same n n' && sameItems ns ns'
  | _, _ => false

end

theorem same_iff : n.same n' ↔ n = n' := by
  have hall : ∀ ns : List Node, (∀ n ∈ ns, ∀ n', n.same n' ↔ n = n') → ∀ ns', sameItems ns ns' ↔ ns = ns' := by
    intro ns
    induction ns with
    | nil => intro _ ns'; cases ns' <;> simp [sameItems]
    | cons n ns ih =>
      intro hone ns'
      cases ns' with
      | nil => simp [sameItems]
      | cons n' ns' =>
        rw [sameItems, Bool.and_eq_true, hone n mem_cons_self, ih fun x hx => hone x (mem_cons_of_mem _ hx), List.cons.injEq]
  induction n using induct generalizing n' with
  | absent => cases n' <;> simp [same]
  | seq ns ih =>
    cases n' with
    | seq ns' => rw [same, hall ns fun n hn n' => ih n hn, seq.injEq]
    | _ => simp [same]
  | node k m parts ih =>
    cases n' with
    | node k' m' parts' =>
      rw [same, Bool.and_eq_true, Bool.and_eq_true, decide_eq_true_eq, decide_eq_true_eq, hall parts fun n hn n' => ih n hn,
        node.injEq, and_assoc]
    | _ => simp [same]

instance : DecidableEq Node := fun _ _ => decidable_of_iff _ same_iff

/-- A name has no parts. -/
def isLeafName : Node → Bool
  | .node (.identifier _) _ parts => parts.isEmpty
  | _ => true

/-- A tree is determined by its names and by what it is without them. -/
theorem eq_of_blank_of_names (hl : n.every isLeafName) (hb : n'.blank = n.blank) (hn : n'.names = n.names) : n' = n := by
  have hblank : blank = relabel fun k m => (k.blank, m) := funext blank_eq_relabel
  have hall : ∀ ns : List Node, (∀ n ∈ ns, ∀ n', n'.blank = n.blank → n'.names = n.names → n' = n) →
      ∀ ns', ns'.map blank = ns.map blank → ns'.flatMap names = ns.flatMap names → ns' = ns := by
    intro ns
    induction ns with
    | nil => exact fun _ ns' h _ => map_eq_nil_iff.1 h
    | cons n ns ih =>
      intro hone ns' h hnames
      cases ns' with
      | nil => cases h
      | cons n' ns' =>
        obtain ⟨h₁, h₂⟩ := List.cons.inj h
        have hlength : n'.names.length = n.names.length := by
          have := congrArg (fun n => n.names.length) h₁
          simpa only [blank, names_rename, length_map] using this
        rw [flatMap_cons, flatMap_cons] at hnames
        obtain ⟨hn₁, hn₂⟩ := append_inj hnames hlength
        rw [hone n mem_cons_self n' h₁ hn₁, ih (fun x hx => hone x (mem_cons_of_mem _ hx)) ns' h₂ hn₂]
  induction n using induct generalizing n' with
  | absent =>
    rw [blank_eq_relabel] at hb
    exact relabel_eq_absent hb
  | seq ns ih =>
    rw [blank_seq, blank_eq_relabel] at hb
    obtain ⟨ns', rfl, hns⟩ := relabel_eq_seq hb
    rw [every_seq, Bool.and_eq_true, all_eq_true] at hl
    rw [names_seq, names_seq] at hn
    rw [hall ns (fun n hn n' => ih n hn (hl.2 n hn)) ns' (by rw [hns, hblank]) hn]
  | node k m parts ih =>
    rw [every_node, Bool.and_eq_true, all_eq_true] at hl
    rw [blank_eq_relabel, blank_eq_relabel, relabel_node] at hb
    cases n' with
    | absent => cases hb
    | seq ns => rw [relabel_seq] at hb; cases hb
    | node k' m' parts' =>
      rw [relabel_node, node.injEq] at hb
      obtain ⟨hkind, rfl, hparts⟩ := hb
      change k'.blank = k.blank at hkind
      rw [← hblank] at hparts
      by_cases hk : ∃ x, k = .identifier x
      · obtain ⟨x, rfl⟩ := hk
        obtain rfl := isEmpty_iff.1 hl.1
        obtain rfl := map_eq_nil_iff.1 hparts
        obtain rfl | ⟨x, y, hx, rfl⟩ := Kind.eq_of_blank hkind
        · rfl
        · simp only [names_identifier, List.cons.injEq, Prod.mk.injEq] at hn
          rw [hn.1.1]
      · have hk' : ∀ x, k ≠ .identifier x := fun x hx => hk ⟨x, hx⟩
        obtain rfl | ⟨x, y, hx, -⟩ := Kind.eq_of_blank hkind
        · rw [names_node hk', names_node hk'] at hn
          rw [hall parts (fun n hn n' => ih n hn (hl.2 n hn)) parts' hparts hn]
        · exact absurd hx (hk' x)

theorem Renames.isLeafName_relabel (hf : Renames f) (n : Node) : (n.relabel f).every isLeafName = n.every isLeafName := by
  refine every_relabel (fun n => ?_) n
  cases n with
  | node k m parts =>
    rw [relabel_node]
    obtain hk | ⟨x, y, hx, hy⟩ := Kind.eq_of_blank (hf k m)
    · rw [hk]
      cases k with
      | identifier x => exact isEmpty_map
      | _ => rfl
    · rw [hy, hx]
      exact isEmpty_map
  | _ => simp [isLeafName]

theorem isLeafName_forgetScopes (n : Node) : n.forgetScopes.every isLeafName = n.every isLeafName := by
  rw [forgetScopes_eq_relabel]
  exact Renames.isLeafName_relabel (fun _ _ => rfl) n

theorem isLeafName_rename (g : String → Mark → String) (n : Node) : (n.rename g).every isLeafName = n.every isLeafName := by
  rw [rename_eq_relabel]
  exact Renames.isLeafName_relabel (fun k m => Kind.blank_rename _ k) n

/-- A tree is determined by its names and by what is noted about them. -/
theorem eq_of_blank_of_forgetScopes (hl : n.every isLeafName) (hb : n'.blank = n.blank)
    (hf : n'.forgetScopes = n.forgetScopes) : n' = n := by
  have hmarks := congrArg (fun n => n.names.map (·.2)) hb
  have hwords := congrArg (fun n => n.names.map (·.1)) hf
  simp only [blank, names_rename, names_forgetScopes, map_map] at hmarks hwords
  refine eq_of_blank_of_names hl hb ?_
  rw [zip_of_prod hwords hmarks]
  exact (zip_of_prod rfl rfl).symm

theorem blank_rename (g : String → Mark → String) (n : Node) : (n.rename g).blank = n.blank := by
  rw [blank_eq_relabel, rename_eq_relabel, relabel_relabel, blank_eq_relabel]
  simp only [Kind.blank_rename]

theorem rename_eq_self {g : String → Mark → String} (hg : ∀ x m, g x m = x) (n : Node) : n.rename g = n := by
  refine (rename_eq_relabel g n).trans (Eq.trans ?_ (relabel_id n))
  congr 1
  funext k m
  cases k with
  | identifier x => rw [Kind.rename, hg]
  | _ => rfl

end Node

open Node

/-! ## Shapes and marks -/

section

variable {f g : Relabelling} (hk : ∀ k m, (g k m).1.blank = (f k m).1.blank)

include hk

/-- Formed trees stay so with other words that a node of their kind can have. -/
theorem Formed.relabel (hw : ∀ k m, (f k m).1.worded → (g k m).1.worded) {r : Role}
    (h : Formed r (n.relabel f)) : Formed r (n.relabel g) := by
  induction n using induct generalizing r with
  | absent => exact h
  | seq ns ih =>
    rw [relabel_seq] at h ⊢
    cases h with
    | seq list items =>
      refine .seq list fun x hx => ?_
      obtain ⟨n, hn, rfl⟩ := mem_map.1 hx
      exact ih n hn (items _ (mem_map_of_mem hn))
  | node k m parts ih =>
    rw [relabel_node] at h ⊢
    have hshape := Kind.shape_of_blank (hk k m)
    cases h with
    | node place takes worded count parted =>
      refine .node place (by rwa [Kind.takes_of_blank (hk k m)]) (hw k m worded)
        (by rwa [hshape, length_map, ← length_map (f := Node.relabel f)]) fun i x hx => ?_
      rw [getElem?_map, Option.map_eq_some_iff] at hx
      obtain ⟨n, hn, rfl⟩ := hx
      rw [hshape]
      exact ih n (mem_of_getElem? hn) (parted i _ (by rw [getElem?_map, hn]; rfl))

variable (hm : ∀ k m, (g k m).2 = (f k m).2)

include hm

theorem Node.DeclaredName.relabel (h : DeclaredName (n.relabel f)) : DeclaredName (n.relabel g) := by
  cases n with
  | absent => cases h
  | seq ns => rw [relabel_seq] at h; cases h
  | node k m parts =>
    rw [relabel_node] at h ⊢
    generalize hkind : (f k m).1 = k' at h
    generalize hparts : parts.map (Node.relabel f) = ps at h
    obtain ⟨scope, candidate, inExpr⟩ := h
    obtain rfl := map_eq_nil_iff.1 hparts
    rw [← hm] at scope candidate inExpr
    have hblank := hk k m
    rw [hkind] at hblank
    cases hg : (g k m).1 with
    | identifier y => exact ⟨scope, candidate, inExpr⟩
    | _ => rw [hg] at hblank; cases hblank

/-- Marked trees stay so with other names. -/
theorem Node.Marked.relabel (h : Marked (n.relabel f)) : Marked (n.relabel g) := by
  induction n using induct with
  | absent => exact .absent
  | seq ns ih =>
    rw [relabel_seq] at h ⊢
    cases h with
    | seq items =>
      refine .seq fun x hx => ?_
      obtain ⟨n, hn, rfl⟩ := mem_map.1 hx
      exact ih n hn (items _ (mem_map_of_mem hn))
  | node k m parts ih =>
    rw [relabel_node] at h ⊢
    have hblank := hk k m
    rw [hm]
    generalize (f k m).2 = m' at h
    generalize (f k m).1 = kf at h hblank
    generalize (g k m).1 = kg at hblank
    generalize hparts : parts.map (Node.relabel f) = ps at h
    cases h with
    | name scope used =>
      obtain rfl := map_eq_nil_iff.1 hparts
      obtain rfl | ⟨x, y, -, rfl⟩ := Kind.eq_of_blank hblank
      · exact .name scope used
      · exact .name scope used
    | declaration scope kind declared rest =>
      obtain rfl | ⟨x, y, rfl, -⟩ := Kind.eq_of_blank hblank
      · obtain ⟨a, as, rfl, rfl, hrest⟩ := map_eq_cons_iff.1 hparts
        obtain ⟨b, bs, rfl, rfl, hnil⟩ := map_eq_cons_iff.1 hrest
        obtain rfl := map_eq_nil_iff.1 hnil
        exact .declaration scope kind (declared.relabel hk hm) (ih b (by simp) rest)
      · rcases kind with kind | kind <;> cases kind
    | function scope declared declares rest =>
      obtain rfl | ⟨x, y, h, -⟩ := Kind.eq_of_blank hblank
      · obtain ⟨a, as, rfl, rfl, hrest⟩ := map_eq_cons_iff.1 hparts
        obtain ⟨b, bs, rfl, hb, hrest⟩ := map_eq_cons_iff.1 hrest
        obtain ⟨c, cs, rfl, hc, hnil⟩ := map_eq_cons_iff.1 hrest
        obtain rfl := map_eq_nil_iff.1 hnil
        obtain ⟨params, rfl, rfl⟩ := relabel_eq_seq hb
        obtain ⟨body, rfl, rfl⟩ := relabel_eq_seq hc
        simp only [map_cons, map_nil, relabel_seq]
        refine .function scope ?_ ?_ ?_
        · exact declared.imp (fun h => by rw [relabel_eq_absent h, relabel_absent]) (·.relabel hk hm)
        · intro p hp
          obtain ⟨x, hx, rfl⟩ := mem_map.1 hp
          exact (declares _ (mem_map_of_mem hx)).relabel hk hm
        · have hbody := ih (.seq body) (by simp) (by rw [relabel_seq]; exact .seq rest)
          rw [relabel_seq] at hbody
          exact hbody.items
      · cases h
    | other scope kind rest =>
      refine .other scope (by rwa [Kind.bindsNames_of_blank hblank]) fun p hp => ?_
      obtain ⟨x, hx, rfl⟩ := mem_map.1 hp
      exact ih x hx (rest _ (hparts ▸ mem_map_of_mem hx))

end

theorem Node.DeclaredName.isLeafName (h : DeclaredName n) : n.every isLeafName := by
  obtain ⟨-⟩ := h
  rfl

/-- The names of a marked tree have no parts. -/
theorem Node.Marked.isLeafName (h : Marked n) : n.every isLeafName := by
  induction h with
  | absent => rfl
  | seq items ih =>
    rw [every_seq, Bool.and_eq_true, all_eq_true]
    exact ⟨rfl, ih⟩
  | name scope used => rfl
  | declaration scope kind declared rest ih =>
    rw [every_node, Bool.and_eq_true]
    refine ⟨?_, by simp [declared.isLeafName, ih]⟩
    rcases kind with rfl | rfl <;> rfl
  | function scope declared declares rest ih =>
    have hname : Node.every Node.isLeafName _ := declared.elim (fun h => by rw [h]; rfl) (·.isLeafName)
    have hparams := fun p hp => (declares p hp).isLeafName
    rw [every_node, Bool.and_eq_true]
    refine ⟨rfl, ?_⟩
    simp only [all_cons, all_nil, every_seq, hname, Bool.and_true, Bool.true_and, Bool.and_eq_true, all_eq_true]
    exact ⟨⟨rfl, hparams⟩, rfl, ih⟩
  | @other k m parts scope kind rest ih =>
    rw [every_node, Bool.and_eq_true, all_eq_true]
    refine ⟨?_, ih⟩
    cases k with
    | identifier x => cases kind
    | _ => rfl

end JsMinify
