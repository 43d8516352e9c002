import JsMinify.Proofs.Scope.Plenty
import Mathlib.Data.List.Forall2

/-!
# When scopes get the same new names

A scope hides the names by which the symbols further out that it refers to are shown, and only those
(`Way.isFree_eq_false`, `isReserved_or_shown`). So the names that are free for it hang on what its references show,
not on how they were written, and two programs whose references correspond give the same new names.
`mangleTree_agrees` says this of a program whose scopes lie in each other as those of a finished one: if each scope in
its turn finds the same names free, all names are given, and they are the same.
-/

namespace JsMinify.Scopes

open List Names

variable {j e q : Nat} {x name : String} {a b : List Nat} {sym : Symbol} {toplevel : Bool} {s t : Scopes}

/-- The way to a symbol of another scope begins with the scope itself. -/
theorem Way.starts (w : s.Way j name a e b sym) (h : s.Nested) (hne : e ≠ j) : ∃ a', a = j :: a' := by
  have hc := w.chain
  rw [h.chain_eq w.inside] at hc
  cases a with
  | nil => exact absurd (List.cons.inj hc).1.symm hne
  | cons k a => exact ⟨a, by rw [(List.cons.inj hc).1]⟩

/-- A scope on the way gives no symbol the name by which the one referred to is shown. -/
theorem Way.isFree_eq_false
    (w : s.Way j name a e b sym) (h : s.Referenced) (hne : e ≠ j) (settled : ∀ i ∈ s.around j, Settled s toplevel i) :
    s.isFree j (s.shownName e name) = false := by
  obtain ⟨a, rfl⟩ := w.starts h.toNested hne
  have haround : s.around j = a ++ e :: b := by
    rw [around, w.chain]
    rfl
  have hj : j ∈ j :: a := mem_cons_self
  rw [haround] at settled
  rcases settled e (by simp) with ⟨-, hu⟩ | ⟨-, q, hg⟩
  · rw [shownName_of_unnamed hu]
    exact w.not_free_of_kept h hu hj
  · obtain ⟨new, hnew⟩ := hg.exists_mangled (mem_map.2 ⟨_, mem_of_lookup w.defined, rfl⟩)
    have hd := (hg.mangled_iff (h.keys e)).1 hnew
    rw [shownName, hnew, Option.getD_some]
    have hout := w.unmangled_eq_none h hd [j] a rfl fun k hk => settled k (mem_append_left _ hk)
    exact w.not_free_of_mangled h hd (nil_append _).symm hout

/-! ## The names shown in a scope -/

/-- The names by which the symbols of a scope are shown, in their order. -/
def shownNames (s : Scopes) (j : Nat) : List String := (keys (s.get j).symbols).map (s.shownName j)

theorem shownNames_of_unnamed (h : Unnamed s j) : s.shownNames j = keys (s.get j).symbols := by
  rw [shownNames, map_congr_left fun x _ => shownName_of_unnamed h x, map_id']

theorem NamesGiven.shownNames_eq (h : NamesGiven s j q (keys (s.get j).symbols))
    (hk : (keys (s.get j).symbols).Nodup) : s.shownNames j = s.freeNames j q := by
  have hlookup : ∀ e ∈ (keys (s.get j).symbols).zip (s.freeNames j q), s.shownName j e.1 = e.2 := by
    intro e he
    have hm : (s.get j).mangled.lookup e.1 = some e.2 := by
      rw [h.mangled, lookup_eq_some_iff (by rwa [keys_zip h.length])]
      exact he
    rw [shownName, hm, Option.getD_some]
  calc s.shownNames j = ((keys (s.get j).symbols).zip (s.freeNames j q)).map fun e => s.shownName j e.1 := by
        have hkeys : keys ((keys (s.get j).symbols).zip (s.freeNames j q)) = keys (s.get j).symbols := keys_zip h.length
        rw [shownNames]
        conv_lhs => rw [← hkeys]
        exact map_map
    _ = ((keys (s.get j).symbols).zip (s.freeNames j q)).map (·.2) := map_congr_left hlookup
    _ = s.freeNames j q := map_snd_zip (Nat.le_of_eq h.length.symm)

theorem shownSymbol?_isSome_iff : (s.shownSymbol? j x).isSome ↔ x ∈ s.shownNames j := by
  simp [shownSymbol?, shownNames, keys, find?_isSome]

/-- Where the symbols are shown as they are written, each is shown by its own name. -/
theorem shownName_eq_self (h : s.shownNames j = keys (s.get j).symbols) (hx : x ∈ keys (s.get j).symbols) :
    s.shownName j x = x := by
  rw [shownNames, ← map_id (keys (s.get j).symbols), map_map] at h
  exact map_inj_left.1 h x hx

theorem Finished.injOn_shownName (h : s.Finished toplevel) (j : Nat) :
    Set.InjOn (s.shownName j) {x | x ∈ JsMinify.keys (s.get j).symbols} := by
  intro x hx y hy hxy
  obtain ⟨e, he, rfl⟩ := mem_map.1 hx
  obtain ⟨e', he', rfl⟩ := mem_map.1 hy
  have hj : j < s.all.length := by
    refine Nat.lt_of_not_le fun hle => ?_
    rw [s.get_of_length_le hle] at he
    cases he
  rw [h.shownName_inj hj he' he hxy]

theorem forall₂_eq_iff {α β γ : Type} {f : α → γ} {g : β → γ} {xs : List α} {ys : List β} :
    List.Forall₂ (fun x y => f x = g y) xs ys ↔ xs.map f = ys.map g := by
  rw [← forall₂_eq_eq_eq, forall₂_map_left_iff, forall₂_map_right_iff]

/-- Symbols in the same place are shown by the same name where the names shown are the same. -/
theorem shownName_eq_of_zip (h : t.shownNames j = s.shownNames j) {y : String}
    (hxy : (x, y) ∈ (keys (s.get j).symbols).zip (keys (t.get j).symbols)) : t.shownName j y = s.shownName j x := by
  exact (forall₂_zip (forall₂_eq_iff.2 h.symm) hxy).symm

/-- Two programs when it is the turn of a scope: the scopes around it have got the same names in both. -/
structure Abreast (s t : Scopes) (toplevel : Bool) (j : Nat) : Prop extends SameNesting s t where
  inside : j < s.all.length
  left : ∀ i ∈ s.around j, Settled s toplevel i
  right : ∀ i ∈ s.around j, Settled t toplevel i
  shown : ∀ i ∈ s.around j, t.shownNames i = s.shownNames i

theorem Abreast.symm (h : Abreast s t toplevel j) : Abreast t s toplevel j := by
  obtain ⟨nesting, inside, left, right, shown⟩ := h
  rw [nesting.around_eq] at left right shown
  exact ⟨nesting.symm, nesting.length ▸ inside, right, left, fun i hi => (shown i hi).symm⟩

/-- What is not free for a scope is not free where all its references lead to symbols in the same places. -/
theorem Abreast.isFree_eq_false (h : Abreast s t toplevel j) (hs : s.Referenced)
    (ht : t.Referenced) (refs : ∀ {x e}, (s.get j).refs.lookup x = some e → ∃ y, (t.get j).refs.lookup y = some e ∧
      (x, y) ∈ (keys (s.get e).symbols).zip (keys (t.get e).symbols)) (hx : s.isFree j x = false) :
    t.isFree j x = false := by
  rcases isReserved_or_shown hs.keys h.left hx with hres | ⟨old, e, href, haround, rfl⟩
  · simp [isFree, hres]
  · obtain ⟨y, hy, hzip⟩ := refs href
    obtain ⟨a, b, sym, way⟩ := ht.ways j y e hy
    have hne := Nat.ne_of_lt (hs.lt_of_mem_around h.inside haround)
    rw [← shownName_eq_of_zip (h.shown e haround) hzip]
    exact way.isFree_eq_false ht hne h.symm.left

/-- The first free names, as many as there are symbols, are the same where the same names are free. -/
theorem freeNames_eq {r : Nat} (same : ∀ x ∈ first q, t.isFree j x = s.isFree j x)
    (length : (t.freeNames j r).length = (s.freeNames j q).length) :
    t.freeNames j r = s.freeNames j q := by
  have hsame : t.freeNames j q = s.freeNames j q := filter_congr same
  rw [← hsame] at length ⊢
  rcases Nat.le_total r q with hle | hle
  · exact ((first_isPrefix hle).filter _).eq_of_length length
  · exact (((first_isPrefix hle).filter _).eq_of_length length.symm).symm

/-! ## A whole program -/

/-- The scopes of a program, before they get new names, beside finished ones that lie in each other alike: as many
symbols in each, the same where names are kept, and the same names free for a scope when its turn comes. -/
structure Follows (s t₀ : Scopes) (toplevel : Bool) : Prop extends SameNesting s t₀ where
  count : ∀ j, (keys (t₀.get j).symbols).length = (keys (s.get j).symbols).length
  kept : ∀ j, KeepsNames s toplevel j → keys (t₀.get j).symbols = keys (s.get j).symbols
  free : ∀ t j, Alike t₀ t → (∀ i, (t.get i).refs = (t₀.get i).refs) → Abreast s t toplevel j →
    ∀ q, NamesGiven s j q (keys (s.get j).symbols) → ∀ x ∈ first q, t.isFree j x = s.isFree j x

section

variable {tree : Node} {plain t₀ : Scopes} (h : Follows s t₀ toplevel)
  (hs : s.Finished toplevel) (ready : Prepared tree plain t₀) {k : Nat}

include h hs

theorem Follows.abreast (under : Underway t₀ t toplevel k) (hj : j < s.all.length) (hk : j ≤ k)
    (shown : ∀ i < j, t.shownNames i = s.shownNames i) : Abreast s t toplevel j := by
  have hlt : ∀ i ∈ s.around j, i < j := fun i hi => hs.lt_of_mem_around hj hi
  exact ⟨h.toSameNesting.trans under.toSameNesting, hj, fun i hi => hs.settled i (Nat.lt_trans (hlt i hi) hj),
    fun i hi => under.settled i (Nat.lt_of_lt_of_le (hlt i hi) hk), fun i hi => shown i (hlt i hi)⟩

include ready

theorem Follows.shownNames_eq (under : Underway t₀ t toplevel k) (hk : k ≤ s.all.length) (hj : j < k) :
    t.shownNames j = s.shownNames j := by
  -- The scopes around a scope come before it, so they agree when its turn comes.
  induction j using Nat.strongRecOn with
  | ind j ih =>
    have hlt : j < s.all.length := Nat.lt_of_lt_of_le hj hk
    have hkeeps : KeepsNames t toplevel j ↔ KeepsNames s toplevel j := by
      rw [KeepsNames, KeepsNames, h.parent, under.parent]
    rcases under.settled j hj with ⟨hkeep, hu⟩ | ⟨hgive, r, hg'⟩
    · rcases hs.settled j hlt with ⟨-, hu'⟩ | ⟨hgive, -⟩
      · rw [shownNames_of_unnamed hu, shownNames_of_unnamed hu', ← under.symbols, h.kept j (hkeeps.1 hkeep)]
      · exact absurd (hkeeps.1 hkeep) hgive
    · rcases hs.settled j hlt with ⟨hkeep, -⟩ | ⟨-, q, hg⟩
      · exact absurd (hkeeps.2 hkeep) hgive
      · have abreast := h.abreast hs under hlt (Nat.le_of_lt hj) fun i hi => ih i hi (Nat.lt_trans hi hj)
        have hfree := h.free t j under.toAlike under.refs abreast q hg
        rw [hg.shownNames_eq (hs.keys j), hg'.shownNames_eq (under.symbols j ▸ ready.keys j)]
        refine freeNames_eq hfree ?_
        rw [freeNames, freeNames, ← hg.length, ← hg'.length, ← under.symbols, h.count]

/-- A program that follows a finished one gets its new names. -/
theorem Follows.mangleTree : ∃ t, t₀.mangleTree 0 toplevel = some t ∧ ∀ j, t.shownNames j = s.shownNames j := by
  have hsome : (t₀.mangleTree 0 toplevel).isSome := by
    refine mangleTree_isSome ready.built ready.alike ready.unnamed fun j hj t under hgive => ?_
    rw [← h.length] at hj
    rcases hs.settled j hj with ⟨hkeep, -⟩ | ⟨-, q, hg⟩
    · exact absurd (by rwa [KeepsNames, ← h.parent]) hgive
    · have abreast := h.abreast hs under hj (Nat.le_refl j) fun i hi => h.shownNames_eq hs ready under (Nat.le_of_lt hj) hi
      have hfree := h.free t j under.toAlike under.refs abreast q hg
      refine ⟨q, by rw [hg.drawn]; rfl, ?_⟩
      rw [freeNames, filter_congr hfree, ← hg.length, h.count]
  obtain ⟨t, ht⟩ := Option.isSome_iff_exists.1 hsome
  refine ⟨t, ht, fun j => ?_⟩
  have under := mangleTree_spec ready.built ready.alike ready.unnamed ht
  rcases Nat.lt_or_ge j t₀.all.length with hj | hj
  · exact h.shownNames_eq hs ready under (Nat.le_of_eq h.length.symm) hj
  · rw [shownNames, shownNames, get_of_length_le t (under.length ▸ hj), get_of_length_le s (h.length ▸ hj)]
    rfl

end

end JsMinify.Scopes
