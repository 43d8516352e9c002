import JsMinify.Scope.Names
import Mathlib.Data.List.Sort
import Mathlib.Data.List.Sublists

/-!
# Choices of letters

A word picks letters at increasing positions (`Picks`). Picks are ordered by their size and then by their positions
(`Before`), and `nextPositions` leads from each to the very next one. So the words over `n` letters come from all
picks but the empty one, each once and in this order (`words_enumerate`).
-/

namespace JsMinify.Names

open List

variable {n a c d p i : Nat} {ps qs rs : List Nat} {cs : List Char}

/-- Increasing positions below `n`. -/
structure Picks (n : Nat) (ps : List Nat) : Prop where
  increasing : ps.Pairwise (· < ·)
  below : ∀ p ∈ ps, p < n

/-- Shorter lists come first, and lists of one length by their entries. -/
def Before (ps qs : List Nat) : Prop := ps.length < qs.length ∨ ps.length = qs.length ∧ ps < qs

theorem Before.trans (h : Before ps qs) (h' : Before qs rs) : Before ps rs := by
  rcases h with h | ⟨hl, h⟩ <;> rcases h' with h' | ⟨hl', h'⟩
  · exact .inl (by omega)
  · exact .inl (by omega)
  · exact .inl (by omega)
  · exact .inr ⟨by omega, lt_trans h h'⟩

theorem Before.ne (h : Before ps qs) : ps ≠ qs := by
  rintro rfl
  rcases h with h | ⟨-, h⟩
  · omega
  · exact lt_irrefl ps h

theorem Before.length_le (h : Before ps qs) : ps.length ≤ qs.length := by
  rcases h with h | ⟨h, -⟩
  · exact Nat.le_of_lt h
  · exact Nat.le_of_eq h

namespace Picks

theorem nil (n : Nat) : Picks n [] := ⟨.nil, by simp⟩

theorem sublist (h : Picks n ps) : ps <+ range n :=
  sublist_of_subperm_of_pairwise (h.increasing.nodup.subperm fun p hp => mem_range.2 (h.below p hp)) h.increasing
    pairwise_lt_range

theorem of_sublist (h : ps <+ range n) : Picks n ps :=
  ⟨pairwise_lt_range.sublist h, fun _ hp => mem_range.1 (h.subset hp)⟩

theorem tail (h : Picks n (p :: ps)) : Picks n ps :=
  ⟨(pairwise_cons.1 h.increasing).2, fun q hq => h.below q (mem_cons_of_mem p hq)⟩

/-- Increasing positions behind `p` need that much room. -/
theorem room (h : Picks n (p :: ps)) : p + ps.length < n := by
  induction ps generalizing p with
  | nil => exact h.below p mem_cons_self
  | cons q ps ih =>
    have hpq := (pairwise_cons.1 h.increasing).1 q mem_cons_self
    have := ih h.tail
    rw [length_cons]
    omega

theorem range' (h : a + c ≤ n) : Picks n (range' a c) :=
  ⟨pairwise_lt_range', fun p hp => by have := mem_range'_1.1 hp; omega⟩

end Picks

/-- Positions in a row are the least increasing ones of their number. -/
theorem range'_le (h : ps.Pairwise (· < ·)) (ha : ∀ p ∈ ps, a ≤ p) : range' a ps.length = ps ∨ range' a ps.length < ps := by
  induction ps generalizing a with
  | nil => exact .inl rfl
  | cons p ps ih =>
    obtain ⟨hp, hps⟩ := pairwise_cons.1 h
    rw [length_cons, range'_succ]
    rcases Nat.lt_or_eq_of_le (ha p mem_cons_self) with hlt | rfl
    · exact .inr (cons_lt_cons_iff.2 (.inl hlt))
    · rcases ih hps hp with heq | hlt
      · exact .inl (by rw [heq])
      · exact .inr (cons_lt_cons_iff.2 (.inr ⟨rfl, hlt⟩))

/-! ## The next pick -/

/-- No pick of the same size comes after the last one. -/
theorem not_lt_of_bump_none (h : bump n ps = none) (hr : Picks n rs) (hl : rs.length = ps.length) : ¬ps < rs := by
  intro hlt
  induction ps generalizing rs with
  | nil =>
    rw [length_eq_zero_iff.1 hl] at hlt
    exact lt_irrefl [] hlt
  | cons p ps ih =>
    cases rs with
    | nil => cases hl
    | cons r rs =>
      have hroom := hr.room
      simp only [bump, length_cons] at h hl
      split at h
      · cases h
      · next hb =>
        split at h
        · cases h
        · rcases cons_lt_cons_iff.1 hlt with hpr | ⟨-, hps⟩
          · omega
          · exact ih hb hr.tail (by omega) hps

/-- A pick is followed by the least one of its size that comes after it. -/
theorem bump_spec (h : bump n ps = some qs) (hp : Picks n ps) :
    Picks n qs ∧ ps.length = qs.length ∧ ps < qs ∧ (∀ a, (∀ p ∈ ps, a ≤ p) → ∀ q ∈ qs, a ≤ q) ∧
      ∀ rs, Picks n rs → rs.length = ps.length → ps < rs → qs = rs ∨ qs < rs := by
  induction ps generalizing qs with
  | nil => cases h
  | cons p ps ih =>
    simp only [bump] at h
    split at h
    · next qs' hb =>
      cases h
      obtain ⟨hq, hlen, hlt, hlow, hleast⟩ := ih hb hp.tail
      have hafter := hlow (p + 1) (pairwise_cons.1 hp.increasing).1
      refine ⟨⟨pairwise_cons.2 ⟨hafter, hq.increasing⟩, forall_mem_cons.2 ⟨hp.below p mem_cons_self, hq.below⟩⟩,
        by rw [length_cons, length_cons, hlen], cons_lt_cons_iff.2 (.inr ⟨rfl, hlt⟩), fun a ha => ?_, fun rs hr hl hrs => ?_⟩
      · obtain ⟨hpa, hpsa⟩ := forall_mem_cons.1 ha
        exact forall_mem_cons.2 ⟨hpa, hlow a hpsa⟩
      · cases rs with
        | nil => cases hl
        | cons r rs =>
          rcases cons_lt_cons_iff.1 hrs with hpr | ⟨rfl, hps⟩
          · exact .inr (cons_lt_cons_iff.2 (.inl hpr))
          · rcases hleast rs hr.tail (by simpa using hl) hps with rfl | hlt'
            · exact .inl rfl
            · exact .inr (cons_lt_cons_iff.2 (.inr ⟨rfl, hlt'⟩))
    · next hb =>
      split at h
      · next hfits =>
        cases h
        refine ⟨.range' (by omega), by rw [length_range', length_cons], ?_, fun a ha q hq => ?_, fun rs hr hl hrs => ?_⟩
        · rw [range'_succ]
          exact cons_lt_cons_iff.2 (.inl (Nat.lt_succ_self p))
        · have := ha p mem_cons_self
          have := mem_range'_1.1 hq
          omega
        · cases rs with
          | nil => cases hl
          | cons r rs =>
            rw [length_cons, length_cons] at hl
            rcases cons_lt_cons_iff.1 hrs with hpr | ⟨-, hps⟩
            · have hlow : ∀ x ∈ r :: rs, p + 1 ≤ x :=
                forall_mem_cons.2 ⟨hpr, fun x hx => Nat.le_of_lt (Nat.lt_of_le_of_lt hpr ((pairwise_cons.1 hr.increasing).1 x hx))⟩
              rw [← hl]
              exact range'_le hr.increasing hlow
            · exact absurd hps (not_lt_of_bump_none hb hr.tail (by omega))
      · cases h

/-- The next choice is the first one behind the last. -/
theorem next_spec (h : nextPositions n ps = some qs) (hp : Picks n ps) :
    Picks n qs ∧ Before ps qs ∧ ∀ rs, Picks n rs → Before ps rs → qs = rs ∨ Before qs rs := by
  unfold nextPositions at h
  cases hb : bump n ps with
  | some qs' =>
    rw [hb] at h
    cases h
    obtain ⟨hq, hlen, hlt, -, hleast⟩ := bump_spec hb hp
    refine ⟨hq, .inr ⟨hlen, hlt⟩, fun rs hr hrs => ?_⟩
    rcases hrs with hless | ⟨hl, hrs⟩
    · exact .inr (.inl (by omega))
    · exact (hleast rs hr hl.symm hrs).imp_right fun hlt => .inr ⟨by omega, hlt⟩
  | none =>
    rw [hb, Option.none_or] at h
    split at h
    · next hsize =>
      cases h
      rw [range_eq_range']
      refine ⟨.range' (by omega), .inl (by simp), fun rs hr hrs => ?_⟩
      rcases hrs with hless | ⟨hl, hrs⟩
      · rcases Nat.lt_or_eq_of_le (Nat.succ_le_of_lt hless) with hlt | heq
        · exact .inr (.inl (by rw [length_range']; exact hlt))
        · rw [show ps.length + 1 = rs.length from heq]
          exact (range'_le hr.increasing fun _ _ => Nat.zero_le _).imp_right fun hlt => .inr ⟨length_range', hlt⟩
      · exact absurd hrs (not_lt_of_bump_none hb hr hl.symm)
    · cases h

theorem next_none (h : nextPositions n ps = none) (hr : Picks n rs) : ¬Before ps rs := by
  rw [nextPositions, Option.or_eq_none_iff] at h
  rintro (hless | ⟨hl, hlt⟩)
  · have hle := hr.sublist.length_le
    rw [length_range] at hle
    rw [if_pos (by omega)] at h
    cases h.2
  · exact not_lt_of_bump_none h.1 hr hl.symm hlt

/-! ## All picks -/

/-- The picks after `ps`, `count` of them or fewer. -/
def picksFrom (n : Nat) : Nat → List Nat → List (List Nat)
  | 0, _ => []
  | count + 1, ps =>
    match nextPositions n ps with
    | none => []
    | some qs => qs :: picksFrom n count qs

theorem wordsFrom_eq (letters : List String) (c : Nat) (ps : List Nat) :
    wordsFrom letters c ps = (picksFrom letters.length c ps).map (wordAt letters) := by
  induction c generalizing ps with
  | zero => rfl
  | succ c ih =>
    rw [wordsFrom, picksFrom]
    cases nextPositions letters.length ps with
    | none => rfl
    | some qs => rw [map_cons, ← ih]

theorem mem_picksFrom (hp : Picks n ps) (hq : qs ∈ picksFrom n c ps) : Picks n qs ∧ Before ps qs := by
  induction c generalizing ps with
  | zero => cases hq
  | succ c ih =>
    rw [picksFrom] at hq
    cases hn : nextPositions n ps with
    | none =>
      rw [hn] at hq
      cases hq
    | some rs =>
      rw [hn] at hq
      obtain ⟨hr, hbefore, -⟩ := next_spec hn hp
      rcases mem_cons.1 hq with rfl | hq
      · exact ⟨hr, hbefore⟩
      · exact (ih hr hq).imp_right hbefore.trans

theorem ordered_picksFrom (hp : Picks n ps) : (ps :: picksFrom n c ps).Pairwise Before := by
  induction c generalizing ps with
  | zero => exact pairwise_singleton _ _
  | succ c ih =>
    refine pairwise_cons.2 ⟨fun qs hq => (mem_picksFrom hp hq).2, ?_⟩
    rw [picksFrom]
    cases hn : nextPositions n ps with
    | none => exact .nil
    | some qs => exact ih (next_spec hn hp).1

/-- A list of picks that ended by itself is complete. -/
theorem mem_picksFrom_of_short (hp : Picks n ps) (hr : Picks n rs) (hb : Before ps rs)
    (short : (picksFrom n c ps).length < c) : rs ∈ picksFrom n c ps := by
  induction c generalizing ps with
  | zero => omega
  | succ c ih =>
    rw [picksFrom] at short ⊢
    cases hn : nextPositions n ps with
    | none => exact absurd hb (next_none hn hr)
    | some qs =>
      rw [hn] at short
      simp only [length_cons] at short
      obtain ⟨hq, -, hleast⟩ := next_spec hn hp
      rcases hleast rs hr hb with rfl | hb'
      · exact mem_cons_self
      · exact mem_cons_of_mem _ (ih hq hb' (by omega))

theorem take_picksFrom (h : c ≤ d) : (picksFrom n d ps).take c = picksFrom n c ps := by
  induction c generalizing d ps with
  | zero => rfl
  | succ c ih =>
    obtain ⟨d, rfl⟩ : ∃ e, d = e + 1 := ⟨d - 1, by omega⟩
    rw [picksFrom, picksFrom]
    cases nextPositions n ps with
    | none => rfl
    | some qs => rw [take_succ_cons, ih (Nat.le_of_succ_le_succ h)]

/-- Each pick is followed by the next one. -/
theorem getElem?_picksFrom_succ (hi : i < c) (h : (ps :: picksFrom n c ps)[i]? = some qs) :
    (ps :: picksFrom n c ps)[i + 1]? = nextPositions n qs := by
  induction c generalizing i ps with
  | zero => omega
  | succ c ih =>
    rw [getElem?_cons_succ, picksFrom]
    cases i with
    | zero =>
      cases h
      cases nextPositions n qs <;> rfl
    | succ i =>
      rw [getElem?_cons_succ, picksFrom] at h
      cases hn : nextPositions n ps with
      | none =>
        rw [hn] at h
        cases h
      | some rs =>
        rw [hn] at h
        exact ih (Nat.lt_of_succ_lt_succ hi) h

theorem length_picksFrom_lt (n c : Nat) : (picksFrom n c []).length < Nat.pow 2 n := by
  have hsub : [] :: picksFrom n c [] ⊆ (range n).sublists := fun qs hq => by
    rcases mem_cons.1 hq with rfl | hq
    · exact mem_sublists.2 (nil_sublist _)
    · exact mem_sublists.2 (mem_picksFrom (.nil n) hq).1.sublist
  have hnodup : ([] :: picksFrom n c []).Nodup := (ordered_picksFrom (.nil n)).imp Before.ne
  have hle := (hnodup.subperm hsub).length_le
  rw [length_sublists, length_range] at hle
  exact hle

/-- All picks of some of `n` positions, in order. -/
def picks (n : Nat) : List (List Nat) := picksFrom n (Nat.pow 2 n) []

theorem ordered_picks (n : Nat) : ([] :: picks n).Pairwise Before := ordered_picksFrom (.nil n)

theorem mem_picks : qs ∈ picks n ↔ qs ≠ [] ∧ Picks n qs := by
  constructor
  · intro h
    obtain ⟨hq, hb⟩ := mem_picksFrom (.nil n) h
    exact ⟨hb.ne.symm, hq⟩
  · rintro ⟨hne, hq⟩
    exact mem_picksFrom_of_short (.nil n) hq (.inl (length_pos_of_ne_nil hne)) (length_picksFrom_lt n _)

theorem length_picks (n : Nat) : (picks n).length = Nat.pow 2 n - 1 := by
  have hsub : (range n).sublists ⊆ [] :: picks n := fun qs hq => by
    by_cases hne : qs = []
    · exact hne ▸ mem_cons_self
    · exact mem_cons_of_mem _ (mem_picks.2 ⟨hne, .of_sublist (mem_sublists.1 hq)⟩)
  have hle := ((nodup_sublists.2 nodup_range).subperm hsub).length_le
  have hlt := length_picksFrom_lt n (Nat.pow 2 n)
  rw [length_sublists, length_range] at hle
  change Nat.pow 2 n ≤ (picks n).length + 1 at hle
  rw [← picks] at hlt
  omega

theorem isSome_getElem?_picks : ([] :: picks n)[i]?.isSome ↔ i ≤ Nat.pow 2 n - 1 := by
  rw [isSome_getElem?, length_cons, length_picks, Nat.lt_succ_iff]

theorem getElem?_picks_succ (h : ([] :: picks n)[i]? = some qs) : ([] :: picks n)[i + 1]? = nextPositions n qs := by
  have hle := isSome_getElem?_picks.1 (Option.isSome_of_eq_some h)
  have hpos : 0 < Nat.pow 2 n := Nat.two_pow_pos n
  exact getElem?_picksFrom_succ (by omega) h

theorem picksFrom_nil (n c : Nat) : picksFrom n c [] = (picks n).take c := by
  rcases Nat.le_total c (Nat.pow 2 n) with h | h
  · rw [picks, take_picksFrom h]
  · rw [picks, ← take_picksFrom h, take_of_length_le (Nat.le_of_lt (length_picksFrom_lt n c)),
      take_of_length_le (Nat.le_of_lt (Nat.lt_of_lt_of_le (length_picksFrom_lt n c) h))]

theorem words_eq (letters : List String) (skip count : Nat) :
    words letters skip count = (((picks letters.length).drop skip).take count).map (wordAt letters) := by
  rw [words, wordsFrom_eq, picksFrom_nil, ← map_drop, drop_take, Nat.add_sub_cancel_left]

/-! ## Words of single letters -/

theorem toList_wordAt (h : ∀ p ∈ ps, p < cs.length) :
    (wordAt (cs.map String.singleton) ps).toList = ps.map fun p => cs.getD p ' ' := by
  induction ps with
  | nil => rfl
  | cons p ps ih =>
    obtain ⟨hp, hps⟩ := forall_mem_cons.1 h
    have h1 : ((cs.map String.singleton).getD p "").toList = [cs.getD p ' '] := by
      simp [getD_eq_getElem?_getD, hp]
    have ih' := ih hps
    rw [wordAt, String.toList_join, flatMap_map] at ih' ⊢
    rw [flatMap_cons, h1, ih']
    rfl

theorem wordAt_inj (hd : cs.Nodup) (hp : ∀ p ∈ ps, p < cs.length) (hq : ∀ q ∈ qs, q < cs.length)
    (h : wordAt (cs.map String.singleton) ps = wordAt (cs.map String.singleton) qs) : ps = qs := by
  have hl := congrArg String.toList h
  rw [toList_wordAt hp, toList_wordAt hq] at hl
  clear h
  induction ps generalizing qs with
  | nil => exact (map_eq_nil_iff.1 hl.symm).symm
  | cons p ps ih =>
    cases qs with
    | nil => cases hl
    | cons q qs =>
      obtain ⟨hp', hps⟩ := forall_mem_cons.1 hp
      obtain ⟨hq', hqs⟩ := forall_mem_cons.1 hq
      obtain ⟨hc, ht⟩ := cons.inj hl
      have hc' : cs[p] = cs[q] := by simpa [getD_eq_getElem?_getD, hp', hq'] using hc
      rw [(getElem_inj hd).1 hc', ih hps hqs ht]

theorem nodup_words (hd : cs.Nodup) : ((picks cs.length).map (wordAt (cs.map String.singleton))).Nodup := by
  refine nodup_map_iff_inj_on ((pairwise_cons.1 (ordered_picks _)).2.imp Before.ne) |>.2 fun ps hp qs hq h => ?_
  exact wordAt_inj hd (mem_picks.1 hp).2.below (mem_picks.1 hq).2.below h

theorem lengths_words (cs : List Char) :
    ((picks cs.length).map (wordAt (cs.map String.singleton))).Pairwise (·.length ≤ ·.length) := by
  refine pairwise_map.2 ((pairwise_cons.1 (ordered_picks _)).2.imp_of_mem fun {ps qs} hp hq hb => ?_)
  have hlen : ∀ {ps : List Nat}, ps ∈ picks cs.length → (wordAt (cs.map String.singleton) ps).length = ps.length := by
    intro ps hp
    rw [← String.length_toList, toList_wordAt (mem_picks.1 hp).2.below, length_map]
  rw [hlen hp, hlen hq]
  exact hb.length_le

/-- The words over some letters come from the increasing positions, but for none at all: each pick gives one word, the
smaller ones first and those of one size by their positions. Over distinct characters no word comes twice, and none comes
before a shorter one. -/
theorem words_enumerate (letters : List String) : ∃ all : List (List Nat),
    all.length = Nat.pow 2 letters.length - 1 ∧ all.Pairwise Before ∧
    (∀ ps, ps ∈ all ↔ ps ≠ [] ∧ ps.Pairwise (· < ·) ∧ ∀ p ∈ ps, p < letters.length) ∧
    (∀ skip count, words letters skip count = ((all.drop skip).take count).map (wordAt letters)) ∧
    ∀ cs : List Char, letters = cs.map String.singleton → cs.Nodup →
      (all.map (wordAt letters)).Nodup ∧ (all.map (wordAt letters)).Pairwise (·.length ≤ ·.length) := by
  refine ⟨picks letters.length, length_picks _, (pairwise_cons.1 (ordered_picks _)).2, fun ps => ?_, words_eq letters, ?_⟩
  · rw [mem_picks]
    exact and_congr_right fun _ => ⟨fun h => ⟨h.increasing, h.below⟩, fun h => ⟨h.1, h.2⟩⟩
  · rintro cs rfl hd
    rw [length_map]
    exact ⟨nodup_words hd, lengths_words cs⟩

example : words ["a", "b", "c"] 0 8 = ["a", "b", "c", "ab", "ac", "bc", "abc"] := by decide

end JsMinify.Names
