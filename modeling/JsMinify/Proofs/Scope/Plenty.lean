import JsMinify.Proofs.Scope.Referents

/-!
# Enough short names

A scope finds a new name for each of its symbols as long as enough short names are free for it (`mangleTree_isSome`).
Those that are not free are reserved, or shown by a symbol that the scope refers to, so few references leave enough of
them (`le_length_freeNames`).
-/

namespace JsMinify

open List

variable {i q r : Nat} {s : Scopes} {ps : List Nat} {toplevel : Bool} {x : String}

namespace Scopes

open Names

/-! ## Drawing names -/

def freeNames (s : Scopes) (i q : Nat) : List String := (first q).filter (s.isFree i)

theorem length_freeNames_mono (h : q ≤ r) : (s.freeNames i q).length ≤ (s.freeNames i r).length :=
  ((first_isPrefix h).filter _).length_le

/-- A scope finds the next free name if there is one. -/
theorem freeNameFrom_isSome {fuel : Nat} (hq : positions q = some ps) (hr : (positions r).isSome) (hfuel : r ≤ q + fuel)
    (hmore : (s.freeNames i q).length < (s.freeNames i r).length) : (s.freeNameFrom i fuel ps).isSome := by
  have hqr : q < r := by
    refine Nat.lt_of_not_le fun hle => ?_
    have := length_freeNames_mono (s := s) (i := i) hle
    omega
  induction fuel generalizing q ps with
  | zero => omega
  | succ fuel ih =>
    obtain ⟨qs, hs⟩ := Option.isSome_iff_exists.1 (positions_isSome_of_le hqr hr)
    have hn : nextPositions letters.length ps = some qs := (positions_succ hq).symm.trans hs
    rw [freeNameFrom, hn]
    simp only
    split
    · rfl
    · next hfree =>
      have hsame : s.freeNames i (q + 1) = s.freeNames i q := by
        simp [freeNames, first_succ hs, filter_append, hfree]
      rw [← hsame] at hmore
      refine ih hs (by omega) hmore (Nat.lt_of_le_of_ne hqr ?_)
      rintro rfl
      exact Nat.lt_irrefl _ hmore

theorem mangleSymbol_isSome {names : List String} (hg : NamesGiven s i q names) (hr : (positions r).isSome)
    (hmore : names.length < (s.freeNames i r).length) (name : String) : (mangleSymbol i s name).isSome := by
  have hfuel : r ≤ q + Names.count := Nat.le_trans (positions_isSome_iff.1 hr) (Nat.le_add_left _ _)
  have hdrawn := freeNameFrom_isSome hg.drawn hr hfuel (by rwa [freeNames, ← hg.length])
  rw [mangleSymbol, nextName, Option.isSome_map, Option.isSome_map]
  exact hdrawn

theorem mangleSymbols_isSome (hn : s.Nested) (hi : i < s.all.length) {done todo : List String} (hg : NamesGiven s i q done)
    (hd : (done ++ todo).Nodup) (hr : (positions r).isSome) (hmore : (done ++ todo).length ≤ (s.freeNames i r).length) :
    (todo.foldlM (mangleSymbol i) s).isSome := by
  induction todo generalizing s q done with
  | nil => rfl
  | cons name todo ih =>
    have hlt : done.length < (s.freeNames i r).length := by
      simp only [length_append, length_cons] at hmore
      omega
    obtain ⟨t, ht⟩ := Option.isSome_iff_exists.1 (mangleSymbol_isSome hg hr hlt name)
    have hname : name ∉ done := fun hm => (nodup_append.1 hd).2.2 name hm name (by simp) rfl
    obtain ⟨touch, q', hg'⟩ := mangleSymbol_spec hn hi hg hname ht
    rw [foldlM_cons, ht]
    refine ih (touch.nested hn) (touch.length ▸ hi) hg' (by simpa using hd) ?_
    rw [freeNames, ← touch.isFree_eq hn hi]
    simpa [freeNames] using hmore

theorem mangleScope_isSome (hn : s.Nested) (hi : i < s.all.length) (hk : (keys (s.get i).symbols).Nodup) (hu : Unnamed s i)
    (enough : ¬KeepsNames s toplevel i →
      ∃ r, (positions r).isSome ∧ (keys (s.get i).symbols).length ≤ (s.freeNames i r).length) :
    (mangleScope toplevel s i).isSome := by
  unfold mangleScope
  split
  · rfl
  · next hkeep =>
    obtain ⟨r, hr, hmore⟩ := enough (by simpa [KeepsNames] using hkeep)
    exact mangleSymbols_isSome hn hi hu.namesGiven hk hr hmore

section Underway

variable {s₀ t : Scopes} {j : Nat} (hb : Built s₀) (ha : Alike s₀ s) (hu : ∀ j, Unnamed s j)

include hb ha hu

/-- A scope whose turn has come gets new names if enough names are free for it. -/
theorem Underway.mangleScope_isSome (under : Underway s t toplevel j) (hj : j < s.all.length)
    (enough : ¬KeepsNames s toplevel j →
      ∃ r, (positions r).isSome ∧ (keys (s.get j).symbols).length ≤ (t.freeNames j r).length) :
    (mangleScope toplevel t j).isSome := by
  have same := under.untouched j (Nat.le_refl j)
  refine Scopes.mangleScope_isSome ((ha.trans under.toAlike).nested hb.toNested) (under.length ▸ hj)
    (by rw [← under.symbols, ← ha.symbols]; exact hb.keys j) (by rw [Unnamed, given, same]; exact hu j) ?_
  rw [KeepsNames, same]
  exact enough

/-- All scopes of a program get new names if enough names are free for each of them in its turn. -/
theorem mangleTree_isSome (enough : ∀ j < s.all.length, ∀ t, Underway s t toplevel j → ¬KeepsNames s toplevel j →
      ∃ r, (positions r).isSome ∧ (keys (s.get j).symbols).length ≤ (t.freeNames j r).length) :
    (s.mangleTree 0 toplevel).isSome := by
  have hrange : ∀ j ≤ s.all.length, ((List.range j).foldlM (mangleScope toplevel) s).isSome := by
    intro j hj
    induction j with
    | zero => rfl
    | succ j ih =>
      obtain ⟨t, ht⟩ := Option.isSome_iff_exists.1 (ih (Nat.le_of_succ_le hj))
      have under := underway_of_mangled hb ha hu (Nat.le_of_succ_le hj) ht
      obtain ⟨t', ht'⟩ := Option.isSome_iff_exists.1 (under.mangleScope_isSome hb ha hu hj (enough j hj t under))
      rw [range_succ, foldlM_append, ht]
      simp [ht']
  rw [mangleTree_eq toplevel hb ha]
  exact hrange _ (Nat.le_refl _)

end Underway

end Scopes

/-! ## Names that are not free -/

namespace Names

/-- A word with any of its letters as capitals. -/
def spellings : List Char → List (List Char)
  | [] => [[]]
  | c :: cs => (spellings cs).flatMap fun w => [c :: w, c.toUpper :: w]

/-- The reserved words with any of their letters as capitals. -/
def reservedSpellings : List String :=
  TokenKind.reserved.flatMap fun e => (spellings e.1.toList).map String.ofList

theorem length_reservedSpellings : reservedSpellings.length ≤ 8192 := by decide +kernel

theorem chars_lower_or_upper : chars.all (fun c => c == c.toLower || c == c.toLower.toUpper) := by decide

theorem mem_spellings {w : List Char} (h : ∀ c ∈ w, c ∈ chars) : w ∈ spellings (w.map Char.toLower) := by
  induction w with
  | nil => exact mem_singleton_self _
  | cons c w ih =>
    obtain ⟨hc, hw⟩ := forall_mem_cons.1 h
    refine mem_flatMap.2 ⟨w, ih hw, ?_⟩
    have hcase := all_eq_true.1 chars_lower_or_upper c hc
    rw [Bool.or_eq_true, beq_iff_eq, beq_iff_eq] at hcase
    rcases hcase with hlow | hup
    · rw [← hlow]
      exact mem_cons_self
    · rw [← hup]
      exact mem_cons_of_mem _ (mem_singleton_self _)

theorem chars_of_wordAt (h : ∀ p ∈ ps, p < letters.length) : ∀ c ∈ (wordAt letters ps).toList, c ∈ chars := by
  intro c hc
  have hlt : ∀ p ∈ ps, p < chars.length := by simpa [letters_eq] using h
  rw [letters_eq, toList_wordAt hlt, mem_map] at hc
  obtain ⟨p, hp, rfl⟩ := hc
  rw [getD_eq_getElem?_getD, getElem?_eq_getElem (hlt p hp)]
  exact getElem_mem (hlt p hp)

theorem mem_reservedSpellings (hx : x ∈ first q) (h : isReserved x) : x ∈ reservedSpellings := by
  obtain ⟨r, qs, -, hqs, rfl⟩ := mem_first.1 hx
  obtain ⟨k, hk⟩ := Option.isSome_iff_exists.1 h
  refine mem_flatMap.2 ⟨_, mem_of_lookup hk, mem_map.2 ⟨_, ?_, String.ofList_toList⟩⟩
  rw [String.toList_map]
  exact mem_spellings (chars_of_wordAt (positions_lt hqs))

/-- How many short names are reserved. -/
def reservedCount : Nat := ((first count).filter isReserved).length

theorem reservedCount_le : reservedCount ≤ 8192 := by
  refine Nat.le_trans (((nodup_first count).filter _).subperm fun x hx => ?_).length_le length_reservedSpellings
  obtain ⟨hx, hres⟩ := mem_filter.1 hx
  exact mem_reservedSpellings hx hres

end Names

namespace Scopes

open Names

/-- A name that is not free for a scope is reserved, or a symbol further out that the scope refers to is shown by it. -/
theorem isReserved_or_shown {j : Nat} (hk : ∀ i, (keys (s.get i).symbols).Nodup)
    (settled : ∀ i ∈ s.around j, Settled s toplevel i) (h : s.isFree j x = false) : isReserved x ∨
      ∃ old e, (s.get j).refs.lookup old = some e ∧ e ∈ s.around j ∧ s.shownName e old = x := by
  simp only [isFree, Bool.and_eq_false_iff, Bool.not_eq_false'] at h
  rcases h with (h | h) | h
  · right
    unfold hidesMangled at h
    split at h
    · cases h
    · next e he =>
      obtain ⟨old, hold, href⟩ := (Option.any_eq_true _ _).1 h
      have haround := mem_of_find?_eq_some he
      refine ⟨old, e, by simpa using href, haround, ?_⟩
      rcases settled e haround with ⟨-, hu⟩ | ⟨-, q, hg⟩
      · rw [hu.fields.2.1] at hold
        cases hold
      · rw [shownName, (hg.mangled_iff (hk e)).2 hold, Option.getD_some]
  · right
    unfold hidesSymbol at h
    split at h
    · cases h
    · next e he =>
      simp only [Bool.and_eq_true, decide_eq_true_eq, Option.isNone_iff_eq_none] at h
      exact ⟨x, e, h.1, mem_of_find?_eq_some he, by rw [shownName, h.2, Option.getD_none]⟩
  · exact .inl h

/-- All but a few of the first names are free: each reference hides one name at most. -/
theorem le_length_freeNames {j : Nat} (hk : ∀ i, (keys (s.get i).symbols).Nodup)
    (settled : ∀ i ∈ s.around j, Settled s toplevel i) (hq : (positions q).isSome) :
    q ≤ (s.freeNames j q).length + ((s.get j).refs.length + reservedCount) := by
  have hsplit := length_eq_length_filter_add (l := first q) (s.isFree j)
  have hsub : (first q).filter (fun x => !s.isFree j x) ⊆
      ((s.get j).refs.map fun e => s.shownName e.2 e.1) ++ (first count).filter isReserved := by
    intro x hx
    obtain ⟨hx, hfree⟩ := mem_filter.1 hx
    rcases isReserved_or_shown hk settled (by simpa using hfree) with hres | ⟨old, e, href, -, rfl⟩
    · have hall := (first_isPrefix (positions_isSome_iff.1 hq)).mem hx
      exact mem_append_right _ (mem_filter.2 ⟨hall, hres⟩)
    · exact mem_append_left _ (mem_map.2 ⟨(old, e), mem_of_lookup href, rfl⟩)
  have hle := (((nodup_first q).filter _).subperm hsub).length_le
  rw [length_append, length_map, ← reservedCount] at hle
  rw [length_first hq] at hsplit
  rw [freeNames]
  omega

/-- Enough names are free for a scope that has few symbols and references. -/
theorem Underway.enough {s₀ t : Scopes} {j : Nat} (hb : Built s₀) (ha : Alike s₀ s) (under : Underway s t toplevel j)
    (hj : j < s.all.length) (few : (s.get j).symbols.length + (s.get j).refs.length + reservedCount ≤ Names.count) :
    ∃ r, (positions r).isSome ∧ (keys (s.get j).symbols).length ≤ (t.freeNames j r).length := by
  have hcount : (positions Names.count).isSome := positions_isSome_iff.2 (Nat.le_refl _)
  have hlt : ∀ i ∈ t.around j, i < j := fun i hi =>
    ((ha.trans under.toAlike).nested hb.toNested).lt_of_mem_around (under.length ▸ hj) hi
  have hfree := le_length_freeNames (s := t) (j := j)
    (fun i => by rw [← under.symbols, ← ha.symbols]; exact hb.keys i) (fun i hi => under.settled i (hlt i hi)) hcount
  rw [under.refs] at hfree
  refine ⟨Names.count, hcount, ?_⟩
  rw [keys, length_map]
  omega

end Scopes

end JsMinify
