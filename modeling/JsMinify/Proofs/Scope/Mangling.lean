import JsMinify.Proofs.Scope.Supply
import Mathlib.Data.List.Find

/-!
# New names

A scope gives its symbols, in order, the first short names that are free for it (`Renamed`). Which
names are free hangs on the scopes around it and on its own references only (`isFree_congr`), so what
was free when a scope was renamed is still free at the end. `mangleTree_spec` says what a whole tree of
scopes looks like afterwards.
-/

namespace JsMinify.Scopes

open List Names Option

variable {s s₀ t : Scopes} {i j q : Nat} {toplevel : Bool} {β : Type} {name : String}

/-- Which names are free for a scope depends on the scopes around it and on its references. -/
theorem isFree_congr (h : Alike s t) (ha : ∀ j ∈ s.around i, s.get j = t.get j) (hr : (s.get i).refs = (t.get i).refs) :
    s.isFree i = t.isFree i := by
  have hchain := h.around_eq i
  funext name
  have hm : s.hidesMangled i name = t.hidesMangled i name := by
    have hf : s.aroundWithMangled i name = t.aroundWithMangled i name := by
      unfold aroundWithMangled
      rw [← hchain]
      exact find?_congr fun j hj => by rw [ha j hj]
    unfold hidesMangled
    rw [← hf, ← hr]
    cases hj : s.aroundWithMangled i name with
    | none => rfl
    | some j => simp only [ha j (mem_of_find?_eq_some hj)]
  have hs : s.hidesSymbol i name = t.hidesSymbol i name := by
    have hf : s.aroundWithSymbol i name = t.aroundWithSymbol i name := by
      unfold aroundWithSymbol
      rw [← hchain]
      exact find?_congr fun j hj => by rw [contains, contains, ha j hj]
    unfold hidesSymbol
    rw [← hf, ← hr]
    cases hj : s.aroundWithSymbol i name with
    | none => rfl
    | some j => simp only [ha j (mem_of_find?_eq_some hj)]
  rw [isFree, isFree, hm, hs]

theorem putKey_of_not_mem {key : String} {v : β} {t : List (String × β)}
    (h : key ∉ keys t) : putKey key v t = t ++ [(key, v)] := by
  induction t with
  | nil => rfl
  | cons e t ih =>
    obtain ⟨a, b⟩ := e
    simp only [keys_cons, mem_cons, not_or] at h
    rw [putKey, if_neg (Ne.symm h.1), ih h.2, cons_append]

theorem keys_zip {xs : List String} {ys : List β} (h : xs.length = ys.length) : keys (xs.zip ys) = xs :=
  map_fst_zip (Nat.le_of_eq h)

/-- A scope that gave some of its symbols the first short names free for it. -/
structure NamesGiven (s : Scopes) (j q : Nat) (names : List String) : Prop where
  drawn : positions q = some (s.get j).drawn
  length : names.length = ((first q).filter (s.isFree j)).length
  mangled : (s.get j).mangled = names.zip ((first q).filter (s.isFree j))
  unmangled : (s.get j).unmangled = ((first q).filter (s.isFree j)).zip names

/-- A change of one scope's new names only. -/
structure Touches (i : Nat) (s t : Scopes) : Prop extends Alike s t where
  others : ∀ j, j ≠ i → t.get j = s.get j
  refs : ∀ j, (t.get j).refs = (s.get j).refs

theorem Touches.refl (i : Nat) (s : Scopes) : Touches i s s :=
  ⟨Alike.refl s, fun _ _ => rfl, fun _ => rfl⟩

theorem Touches.trans {u : Scopes} (h : Touches i s t) (h' : Touches i t u) : Touches i s u :=
  ⟨h.toAlike.trans h'.toAlike, fun j hj => (h'.others j hj).trans (h.others j hj), fun j => (h'.refs j).trans (h.refs j)⟩

theorem Touches.isFree_eq (h : Touches i s t) (hn : s.Nested) (hi : i < s.all.length) : s.isFree i = t.isFree i :=
  isFree_congr h.toAlike (fun j hj => (h.others j (Nat.ne_of_lt (hn.lt_of_mem_around hi hj))).symm) (h.refs i).symm

/-- What giving one symbol a new name writes down. -/
theorem mangleSymbol_cases (hi : i < s.all.length) (h : mangleSymbol i s name = some t) :
    ∃ new qs, s.freeNameFrom i Names.count (s.get i).drawn = some (new, qs) ∧ Touches i s t ∧
      (t.get i).drawn = qs ∧ (t.get i).mangled = putKey name new (s.get i).mangled ∧
      (t.get i).unmangled = putKey new name (s.get i).unmangled := by
  obtain ⟨⟨new, s₁⟩, hnext, rfl⟩ := map_eq_some_iff.1 h
  obtain ⟨⟨new', qs⟩, hfree, he⟩ := map_eq_some_iff.1 hnext
  obtain ⟨rfl, rfl⟩ := Prod.mk.inj he
  refine ⟨new', qs, hfree, ⟨?_, fun j hj => ?_, fun j => ?_⟩, ?_⟩
  · refine (Alike.modify s i _ ?_ ?_ ?_).trans (Alike.modify _ i _ ?_ ?_ ?_)
    all_goals exact fun _ => rfl
  · rw [get_modify_of_ne _ hj.symm, get_modify_of_ne _ hj.symm]
  · refine (field_modify _ i _ (·.refs) ?_ j).trans (field_modify _ i _ (·.refs) ?_ j)
    all_goals exact fun _ => rfl
  · rw [get_modify_self _ (by simpa using hi), get_modify_self _ hi]
    exact ⟨rfl, rfl, rfl⟩

/-- Giving one more symbol its new name. -/
theorem mangleSymbol_spec (hn : s.Nested) (hi : i < s.all.length) {names : List String}
    (hg : NamesGiven s i q names) (hname : name ∉ names) (h : mangleSymbol i s name = some t) :
    Touches i s t ∧ ∃ r, NamesGiven t i r (names ++ [name]) := by
  obtain ⟨new, qs, hfree, touch, hdrawn, hmangled, hunmangled⟩ := mangleSymbol_cases hi h
  obtain ⟨r, hr, -, hfirst⟩ := freeNameFrom_spec hg.drawn hfree
  have hsame := touch.isFree_eq hn hi
  have hlen := hg.length
  have hnew : new ∉ (first q).filter (s.isFree i) := by
    have hd := (nodup_first r).filter (s.isFree i)
    rw [hfirst] at hd
    exact fun hm => (nodup_append.1 hd).2.2 new hm new (by simp) rfl
  refine ⟨touch, r, by rw [hdrawn, hr], ?_, ?_, ?_⟩
  · rw [← hsame, hfirst, length_append, length_append, hlen]
    rfl
  · rw [← hsame, hfirst, hmangled, hg.mangled, putKey_of_not_mem (by rwa [keys_zip hlen]),
      zip_append hlen]
    rfl
  · rw [← hsame, hfirst, hunmangled, hg.unmangled, putKey_of_not_mem (by rwa [keys_zip hlen.symm]),
      zip_append hlen.symm]
    rfl

/-- The symbols of a scope get the next free names, one after the other. -/
theorem mangleSymbols_spec (hn : s.Nested) (hi : i < s.all.length) {done todo : List String} (hg : NamesGiven s i q done)
    (hd : (done ++ todo).Nodup) (h : todo.foldlM (mangleSymbol i) s = some t) :
    Touches i s t ∧ ∃ r, NamesGiven t i r (done ++ todo) := by
  induction todo generalizing s q done with
  | nil =>
    obtain rfl := some.inj h
    exact ⟨Touches.refl i s, q, by simpa using hg⟩
  | cons name todo ih =>
    rw [foldlM_cons] at h
    obtain ⟨s₁, h₁, h₂⟩ := bind_eq_some_iff.1 h
    have hname : name ∉ done := fun hm => (nodup_append.1 hd).2.2 name hm name (by simp) rfl
    obtain ⟨touch, r, hg₁⟩ := mangleSymbol_spec hn hi hg hname h₁
    obtain ⟨touch', r', hg₂⟩ := ih (touch.nested hn) (touch.length ▸ hi) hg₁ (by simpa using hd) h₂
    exact ⟨touch.trans touch', r', by simpa using hg₂⟩

/-! ## Whole scopes -/

/-- The outermost scope keeps its names unless the top level is renamed too. -/
def KeepsNames (s : Scopes) (toplevel : Bool) (j : Nat) : Prop :=
  (s.get j).parent = none ∧ toplevel = false

/-- No new name was given yet. -/
def Unnamed (s : Scopes) (j : Nat) : Prop := s.given j = ([], [], [])

theorem Unnamed.fields (h : Unnamed s j) : (s.get j).mangled = [] ∧ (s.get j).unmangled = [] ∧ (s.get j).drawn = [] := by
  simpa [Unnamed, given] using h

theorem Unnamed.namesGiven (h : Unnamed s j) : NamesGiven s j 0 [] :=
  ⟨by rw [h.fields.2.2]; rfl, rfl, h.fields.1, h.fields.2.1⟩

/-- All symbols of a scope have the first short names that are free for it. -/
def Renamed (s : Scopes) (j : Nat) : Prop := ∃ q, NamesGiven s j q (keys (s.get j).symbols)

/-- A scope as it is when all names are given. -/
def Settled (s : Scopes) (toplevel : Bool) (j : Nat) : Prop :=
  (KeepsNames s toplevel j ∧ Unnamed s j) ∨ (¬ KeepsNames s toplevel j ∧ Renamed s j)

/-- Renaming settles one scope and leaves the others alone. -/
theorem mangleScope_spec (hn : s.Nested) (hi : i < s.all.length) (hk : (keys (s.get i).symbols).Nodup) (hu : Unnamed s i)
    (h : mangleScope toplevel s i = some t) : Touches i s t ∧ Settled t toplevel i := by
  unfold mangleScope at h
  split at h
  · next hkeep =>
    cases h
    refine ⟨Touches.refl i s, .inl ⟨?_, hu⟩⟩
    simpa [KeepsNames] using hkeep
  · next hkeep =>
    obtain ⟨touch, r, hg⟩ := mangleSymbols_spec hn hi hu.namesGiven hk h
    refine ⟨touch, .inr ⟨?_, r, ?_⟩⟩
    · rw [KeepsNames, ← touch.parent]
      simpa using hkeep
    · rw [← touch.symbols]
      exact hg

/-- A settled scope stays so while it and the scopes around it are left alone. -/
theorem Settled.congr (h : Settled s toplevel j) (ha : Alike s t) (hj : t.get j = s.get j)
    (hs : ∀ k ∈ s.around j, s.get k = t.get k) : Settled t toplevel j := by
  have hfree : s.isFree j = t.isFree j := isFree_congr ha hs (by rw [hj])
  rcases h with ⟨hk, hu⟩ | ⟨hk, q, hg⟩
  · exact .inl ⟨by rwa [KeepsNames, hj], by rwa [Unnamed, given, hj]⟩
  · refine .inr ⟨by rwa [KeepsNames, hj], q, ?_⟩
    rw [hj]
    exact ⟨by rw [hj, hg.drawn], by rw [← hfree, hg.length], by rw [hj, ← hfree, hg.mangled],
      by rw [hj, ← hfree, hg.unmangled]⟩

/-- Renaming from the outside in settles all scopes that it passes. -/
theorem mangleScopes_spec (js : List Nat) (hn : s.Nested) (hk : ∀ j, (keys (s.get j).symbols).Nodup)
    (hj : ∀ j ∈ js, j < s.all.length) (hu : ∀ j ∈ js, Unnamed s j) (hsorted : js.Pairwise (· < ·))
    (h : js.foldlM (mangleScope toplevel) s = some t) :
    Alike s t ∧ (∀ j, (t.get j).refs = (s.get j).refs) ∧ (∀ j, j ∉ js → t.get j = s.get j) ∧
      ∀ j ∈ js, Settled t toplevel j := by
  induction js generalizing s with
  | nil =>
    obtain rfl := some.inj h
    exact ⟨Alike.refl s, fun _ => rfl, fun _ _ => rfl, by simp⟩
  | cons i js ih =>
    rw [foldlM_cons] at h
    obtain ⟨s₁, h₁, h₂⟩ := bind_eq_some_iff.1 h
    obtain ⟨hlt, hsorted'⟩ := pairwise_cons.1 hsorted
    have hi := hj i mem_cons_self
    obtain ⟨touch, settled⟩ := mangleScope_spec hn hi (hk i) (hu i mem_cons_self) h₁
    have hu₁ : ∀ j ∈ js, Unnamed s₁ j := fun j hm => by
      rw [Unnamed, given, touch.others j (Nat.ne_of_gt (hlt j hm))]
      exact hu j (mem_cons_of_mem _ hm)
    obtain ⟨alike, refs, others, rest⟩ := ih (touch.nested hn) (fun j => by rw [← touch.symbols]; exact hk j)
      (fun j hm => touch.length ▸ hj j (mem_cons_of_mem _ hm)) hu₁ hsorted' h₂
    refine ⟨touch.toAlike.trans alike, fun j => (refs j).trans (touch.refs j), fun j hm => ?_, fun j hm => ?_⟩
    · simp only [mem_cons, not_or] at hm
      rw [others j hm.2, touch.others j hm.1]
    · rcases mem_cons.1 hm with rfl | hm
      · -- The scopes around it have smaller numbers, so nothing renamed later is among them.
        have hlater : ∀ k, k ≤ j → t.get k = s₁.get k := by
          intro k hkj
          refine others k fun hm => ?_
          have := hlt k hm
          omega
        refine settled.congr alike (hlater j (Nat.le_refl j)) fun k hk' => (hlater k ?_).symm
        exact Nat.le_of_lt ((touch.nested hn).lt_of_mem_around (touch.length ▸ hi) hk')
      · exact rest j hm

theorem Built.root_mem_chain (h : Built s) (hi : i < s.all.length) : 0 ∈ s.chain i := by
  induction i using Nat.strongRecOn with
  | ind i ih =>
    rw [h.chain_eq hi]
    cases hp : (s.get i).parent with
    | none =>
      rw [h.root i hi hp]
      exact mem_cons_self
    | some p =>
      have hlt := h.parent_lt i p hp
      exact mem_cons_of_mem _ (ih p hlt (by omega))

/-- All scopes of a program lie inside the first one, so they are all renamed, in the order of their numbers. -/
theorem mangleTree_eq (toplevel : Bool) (hb : Built s₀) (ha : Alike s₀ s) :
    s.mangleTree 0 toplevel = (List.range s.all.length).foldlM (mangleScope toplevel) s := by
  rw [mangleTree, filter_eq_self.2]
  intro i hi
  rw [← ha.chain_eq, contains_iff_mem]
  exact hb.root_mem_chain (by rw [ha.length]; exact mem_range.1 hi)

/-- The first scopes of a program have their new names, and nothing else has changed. -/
structure Underway (s t : Scopes) (toplevel : Bool) (j : Nat) : Prop extends Alike s t where
  refs : ∀ i, (t.get i).refs = (s.get i).refs
  settled : ∀ i < j, Settled t toplevel i
  untouched : ∀ i, j ≤ i → t.get i = s.get i

theorem underway_of_mangled (hb : Built s₀) (ha : Alike s₀ s) (hu : ∀ j, Unnamed s j) (hj : j ≤ s.all.length)
    (h : (List.range j).foldlM (mangleScope toplevel) s = some t) : Underway s t toplevel j := by
  obtain ⟨alike, refs, others, settled⟩ := mangleScopes_spec _ (ha.nested hb.toNested)
    (fun j => by rw [← ha.symbols]; exact hb.keys j)
    (fun i hi => Nat.lt_of_lt_of_le (mem_range.1 hi) hj) (fun j _ => hu j) pairwise_lt_range h
  exact ⟨alike, refs, fun i hi => settled i (mem_range.2 hi), fun i hi => others i fun hm => Nat.not_lt.2 hi (mem_range.1 hm)⟩

/-- When the names of a whole program are given, every scope is settled. -/
theorem mangleTree_spec (hb : Built s₀) (ha : Alike s₀ s) (hu : ∀ j, Unnamed s j) (h : s.mangleTree 0 toplevel = some t) :
    Underway s t toplevel s.all.length := by
  rw [mangleTree_eq toplevel hb ha] at h
  exact underway_of_mangled hb ha hu (Nat.le_refl _) h

end JsMinify.Scopes
