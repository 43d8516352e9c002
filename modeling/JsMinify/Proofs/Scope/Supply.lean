import JsMinify.Proofs.Scope.Choices
import JsMinify.Proofs.Scope.References

/-!
# The supply of short names

Short names are numbered in the order in which they are drawn: `Names.positions` leads to the positions
of each, and `Names.first` lists the first of them. There are `Names.count` of them (`positions_isSome_iff`), and no
short name is drawn twice (`nodup_first`). `freeNameFrom_spec` says what a scope draws: the next short name that is free
for it.
-/

namespace JsMinify

open List

namespace Names

variable {ps qs : List Nat} {q r : Nat} {x : String}

/-- The positions of the short name that was drawn after `q` others; before the first one, none. -/
def positions (q : Nat) : Option (List Nat) := ([] :: picks letters.length)[q]?

/-- The first `q` short names. -/
def first (q : Nat) : List String := wordsFrom letters q []

theorem words_zero (q : Nat) : words letters 0 q = first q := by
  simp [words, first]

theorem first_eq (q : Nat) : first q = ((picks letters.length).take q).map (wordAt letters) := by
  rw [first, wordsFrom_eq, picksFrom_nil]

/-- There is a short name with every number up to their count. -/
theorem positions_isSome_iff : (positions q).isSome ↔ q ≤ count := isSome_getElem?_picks

theorem positions_eq_getElem? (q : Nat) : positions (q + 1) = (picks letters.length)[q]? := by
  rw [positions, getElem?_cons_succ]

theorem positions_isSome_of_le (h : q ≤ r) (hr : (positions r).isSome) : (positions q).isSome :=
  positions_isSome_iff.2 (Nat.le_trans h (positions_isSome_iff.1 hr))

theorem positions_succ (h : positions q = some ps) : positions (q + 1) = nextPositions letters.length ps :=
  getElem?_picks_succ h

theorem positions_lt (h : positions q = some ps) : ∀ p ∈ ps, p < letters.length := by
  rcases mem_cons.1 (mem_of_getElem? h) with rfl | hp
  · simp
  · exact (mem_picks.1 hp).2.below

theorem first_succ (h : positions (q + 1) = some qs) : first (q + 1) = first q ++ [wordAt letters qs] := by
  rw [first_eq, first_eq, take_add_one, ← positions_eq_getElem?, h, map_append]
  rfl

theorem first_isPrefix (h : q ≤ r) : first q <+: first r := by
  rw [first_eq, first_eq]
  exact (take_prefix_take_left h).map _

theorem length_first (hq : (positions q).isSome) : (first q).length = q := by
  rw [first_eq, length_map, length_take, length_picks]
  exact Nat.min_eq_left (positions_isSome_iff.1 hq)

/-- The short name with a number, as the list of all short names has it. -/
theorem words_one_iff : words letters r 1 = [x] ↔ ∃ qs, positions (r + 1) = some qs ∧ x = wordAt letters qs := by
  rw [words_eq, take_one, head?_drop, positions_eq_getElem?]
  cases (picks letters.length)[r]? with
  | none => simp
  | some qs => simp [eq_comm]

/-! ## The short names up to a number -/

def chars : List Char := "abcdefghijklmnopqrstuvwxyzABCDEFGHIJKLMNOPQRSTUVWXYZ$_".toList

theorem letters_eq : letters = chars.map String.singleton := rfl

theorem nodup_chars : chars.Nodup := by decide

theorem mem_first : x ∈ first q ↔ ∃ r qs, r < q ∧ positions (r + 1) = some qs ∧ x = wordAt letters qs := by
  rw [first_eq, mem_map]
  constructor
  · rintro ⟨qs, hq, rfl⟩
    obtain ⟨r, hr⟩ := mem_iff_getElem?.1 hq
    rw [getElem?_take, ← positions_eq_getElem?] at hr
    split at hr
    · next hlt => exact ⟨r, qs, hlt, hr, rfl⟩
    · cases hr
  · rintro ⟨r, qs, hr, hqs, rfl⟩
    exact ⟨qs, mem_of_getElem? (i := r) (by rw [getElem?_take, if_pos hr, ← positions_eq_getElem?, hqs]), rfl⟩

theorem nodup_first (q : Nat) : (first q).Nodup := by
  rw [first_eq]
  exact (nodup_words nodup_chars).sublist ((take_sublist q _).map _)

end Names

namespace Scopes

open Names

/-- A scope draws the next short name that is free for it: those passed over are not. -/
theorem freeNameFrom_spec {s : Scopes} {i fuel q : Nat} {new : String} {ps qs : List Nat} (hq : positions q = some ps)
    (h : s.freeNameFrom i fuel ps = some (new, qs)) : ∃ r, positions r = some qs ∧ s.isFree i new ∧
      (first r).filter (s.isFree i) = (first q).filter (s.isFree i) ++ [new] := by
  induction fuel generalizing q ps with
  | zero => cases h
  | succ fuel ih =>
    simp only [freeNameFrom] at h
    cases hn : nextPositions letters.length ps with
    | none => simp [hn] at h
    | some rs =>
      rw [hn] at h
      simp only at h
      have hs : positions (q + 1) = some rs := (positions_succ hq).trans hn
      split at h
      · next hf =>
        cases Option.some.inj h
        exact ⟨q + 1, hs, hf, by rw [first_succ hs, filter_append]; simp [hf]⟩
      · next hf =>
        obtain ⟨r, hr, hfree, hfirst⟩ := ih hs h
        refine ⟨r, hr, hfree, ?_⟩
        rw [hfirst, first_succ hs, filter_append]
        simp [hf]

end Scopes

end JsMinify
