import JsMinify.Proofs.Scope.Table

/-!
# The scopes around a scope

A scope is made after the one around it (`Nested`), so the chain from a scope outwards ends, and the
chain from any scope on it is the rest of it (`chain_suffix`). `resolve_eq_some_iff` reads a resolved
name off the chain: the scopes before its own do not define it. Chains are the same where scopes lie in
each other alike (`SameNesting`). `Alike` relates two states of the same scopes that differ at most in what
was noted about references and new names; resolved names are the same in both.
-/

namespace JsMinify.Scopes

open List

variable {i k d : Nat} {a b : List Nat} {name : String}

theorem get_modify (s : Scopes) (i : Nat) (f : Scope → Scope) (j : Nat) :
    (s.modify i f).get j = if i = j ∧ j < s.all.length then f (s.get j) else s.get j := by
  simp only [get, modify, getD_eq_getElem?_getD, getElem?_modify]
  by_cases hj : j < s.all.length
  · by_cases hi : i = j <;> simp [hi, hj]
  · simp [hj]

@[simp] theorem length_modify (s : Scopes) (i : Nat) (f : Scope → Scope) : (s.modify i f).all.length = s.all.length := by
  simp [modify]

theorem get_modify_of_ne (s : Scopes) {j : Nat} (h : i ≠ j) (f : Scope → Scope) : (s.modify i f).get j = s.get j := by
  simp [get_modify, h]

theorem get_modify_self (s : Scopes) (h : i < s.all.length) (f : Scope → Scope) : (s.modify i f).get i = f (s.get i) := by
  simp [get_modify, h]

/-- A field that a change leaves alone. -/
theorem field_modify {α : Type} (s : Scopes) (i : Nat) (f : Scope → Scope) (field : Scope → α)
    (h : ∀ c, field (f c) = field c) (j : Nat) : field ((s.modify i f).get j) = field (s.get j) := by
  rw [get_modify]
  split
  · exact h _
  · rfl

theorem get_of_length_le (s : Scopes) (h : s.all.length ≤ i) : s.get i = {} := by
  simp [get, getD_eq_getElem?_getD, getElem?_eq_none h]

theorem get_new (s : Scopes) (kind : ScopeKind) (name : Option String) (parent : Option Nat) (j : Nat) :
    (s.new kind name parent).2.get j =
      if j = s.all.length then { kind := kind, name := name, parent := parent } else s.get j := by
  simp only [new, get, getD_eq_getElem?_getD]
  rcases Nat.lt_trichotomy j s.all.length with h | h | h
  · simp [getElem?_append_left h, Nat.ne_of_lt h]
  · simp [h]
  · simp [Nat.ne_of_gt h, Nat.le_of_lt h, getElem?_append_right (Nat.le_of_lt h), Nat.sub_ne_zero_of_lt h]

/-- Every scope is made after the one around it. -/
structure Nested (s : Scopes) : Prop where
  parent_lt : ∀ i p, (s.get i).parent = some p → p < i

section Chain

variable {s : Scopes}

theorem Nested.chainFrom_fuel (h : s.Nested) (fuel fuel' i : Nat) (hi : i < fuel) (hi' : i < fuel') :
    s.chainFrom fuel i = s.chainFrom fuel' i := by
  induction fuel generalizing fuel' i with
  | zero => omega
  | succ fuel ih =>
    obtain ⟨fuel', rfl⟩ : ∃ n, fuel' = n + 1 := ⟨fuel' - 1, by omega⟩
    simp only [chainFrom]
    cases hp : (s.get i).parent with
    | none => rfl
    | some p =>
      have := h.parent_lt i p hp
      simp only
      rw [ih fuel' p (by omega) (by omega)]

/-- The chain of a scope: the scope itself, then the chain of the scope around it. -/
theorem Nested.chain_eq (h : s.Nested) (hi : i < s.all.length) : s.chain i = i :: match (s.get i).parent with
      | some p => s.chain p
      | none => [] := by
  obtain ⟨n, hn⟩ : ∃ n, s.all.length = n + 1 := ⟨s.all.length - 1, by omega⟩
  unfold chain
  rw [hn, chainFrom]
  cases hp : (s.get i).parent with
  | none => rfl
  | some p =>
    have := h.parent_lt i p hp
    simp only
    rw [h.chainFrom_fuel n (n + 1) p (by omega) (by omega)]

theorem Nested.le_of_mem_chain (h : s.Nested) (hi : i < s.all.length) (hk : k ∈ s.chain i) : k ≤ i := by
  induction i using Nat.strongRecOn with
  | ind i ih =>
    rw [h.chain_eq hi] at hk
    cases hp : (s.get i).parent with
    | none => simp_all
    | some p =>
      have hlt := h.parent_lt i p hp
      rw [hp] at hk
      rcases mem_cons.1 hk with rfl | hk
      · exact Nat.le_refl _
      · have := ih p hlt (by omega) hk
        omega

/-- The chain of a scope on a chain is the rest of that chain. -/
theorem Nested.chain_suffix (h : s.Nested) (hi : i < s.all.length) (hc : s.chain i = a ++ k :: b) : s.chain k = k :: b := by
  induction i using Nat.strongRecOn generalizing a with
  | ind i ih =>
    have hc' := hc
    rw [h.chain_eq hi] at hc
    cases a with
    | nil =>
      obtain ⟨rfl, -⟩ := cons.inj hc
      exact hc'
    | cons x a =>
      obtain ⟨-, ht⟩ := cons.inj hc
      cases hp : (s.get i).parent with
      | none => simp [hp] at ht
      | some p =>
        have hlt := h.parent_lt i p hp
        rw [hp] at ht
        exact ih p hlt (by omega) ht

theorem Nested.around_suffix (h : s.Nested) (hi : i < s.all.length) (hc : s.chain i = a ++ k :: b) : s.around k = b := by
  rw [around, h.chain_suffix hi hc]
  rfl

/-- Scopes further out have smaller numbers. -/
theorem Nested.lt_of_mem_around (h : s.Nested) (hi : i < s.all.length) (hk : k ∈ s.around i) : k < i := by
  rw [around, h.chain_eq hi] at hk
  cases hp : (s.get i).parent with
  | none => simp [hp] at hk
  | some p =>
    have hlt := h.parent_lt i p hp
    rw [hp] at hk
    have := h.le_of_mem_chain (by omega) (show k ∈ s.chain p from hk)
    omega

/-- A scope on a chain with another one further in has that one's parent on the chain. -/
theorem Nested.parent_isSome_of_split (h : s.Nested) {c : List Nat} (hi : i < s.all.length)
    (hc : s.chain i = a ++ k :: (b ++ d :: c)) : (s.get k).parent.isSome := by
  have hk : k < s.all.length := by
    have := h.le_of_mem_chain hi (show k ∈ s.chain i by simp [hc])
    omega
  have hs := h.chain_suffix hi hc
  rw [h.chain_eq hk] at hs
  cases hp : (s.get k).parent with
  | none => simp [hp] at hs
  | some p => rfl

end Chain

/-- A name resolves to the innermost scope on the chain that defines it. -/
theorem resolve_eq_some_iff {s : Scopes} {sym : Symbol} : s.resolve i name = some (d, sym) ↔
      ∃ a b, s.chain i = a ++ d :: b ∧ (∀ j ∈ a, (s.get j).symbols.lookup name = none) ∧
        (s.get d).symbols.lookup name = some sym := by
  unfold resolve
  rw [findSome?_eq_some_iff]
  constructor
  · rintro ⟨a, j, b, hc, hj, ha⟩
    obtain ⟨sym', hs, he⟩ := Option.map_eq_some_iff.1 hj
    obtain ⟨rfl, rfl⟩ := Prod.mk.injEq .. ▸ he
    exact ⟨a, b, hc, fun x hx => by simpa using ha x hx, hs⟩
  · rintro ⟨a, b, hc, ha, hs⟩
    exact ⟨a, d, b, hc, by simp [hs], fun x hx => by simp [ha x hx]⟩

theorem resolve_eq_none_iff {s : Scopes} :
    s.resolve i name = none ↔ ∀ j ∈ s.chain i, (s.get j).symbols.lookup name = none := by
  simp [resolve, findSome?_eq_none_iff]

/-- A name that no scope on the way defines resolves as it does from further out. -/
theorem Nested.resolve_suffix {s : Scopes} (h : s.Nested) (hi : i < s.all.length) (hc : s.chain i = a ++ k :: b)
    (ha : ∀ j ∈ a, (s.get j).symbols.lookup name = none) : s.resolve k name = s.resolve i name := by
  have hnone : (a.findSome? fun j => ((s.get j).symbols.lookup name).map fun sym => (j, sym)) = none :=
    findSome?_eq_none_iff.2 fun j hj => by rw [ha j hj]; rfl
  unfold resolve
  rw [hc, h.chain_suffix hi hc, findSome?_append, hnone, Option.none_or]

/-- Scopes that lie in each other alike. -/
structure SameNesting (s t : Scopes) : Prop where
  length : s.all.length = t.all.length
  parent : ∀ i, (s.get i).parent = (t.get i).parent

namespace SameNesting

variable {s t u : Scopes}

theorem symm (h : SameNesting s t) : SameNesting t s := ⟨h.length.symm, fun i => (h.parent i).symm⟩

theorem trans (h : SameNesting s t) (h' : SameNesting t u) : SameNesting s u :=
  ⟨h.length.trans h'.length, fun i => (h.parent i).trans (h'.parent i)⟩

theorem nested (h : SameNesting s t) (hs : s.Nested) : t.Nested :=
  ⟨fun i p hp => hs.parent_lt i p (by rw [h.parent, hp])⟩

theorem chainFrom_eq (h : SameNesting s t) (fuel i : Nat) : s.chainFrom fuel i = t.chainFrom fuel i := by
  induction fuel generalizing i with
  | zero => rfl
  | succ fuel ih =>
    simp only [chainFrom, h.parent i]
    cases (t.get i).parent with
    | none => rfl
    | some p => simp only [ih]

theorem chain_eq (h : SameNesting s t) (i : Nat) : s.chain i = t.chain i := by
  rw [chain, chain, h.length, h.chainFrom_eq]

theorem around_eq (h : SameNesting s t) (i : Nat) : s.around i = t.around i := by
  rw [around, around, h.chain_eq]

end SameNesting

/-- Two states of the same scopes: they differ at most in references and new names. -/
structure Alike (s t : Scopes) : Prop extends SameNesting s t where
  symbols : ∀ i, (s.get i).symbols = (t.get i).symbols
  home : ∀ i, (s.get i).home = (t.get i).home

namespace Alike

variable {s t u : Scopes}

theorem refl (s : Scopes) : Alike s s := ⟨⟨rfl, fun _ => rfl⟩, fun _ => rfl, fun _ => rfl⟩

theorem trans (h : Alike s t) (h' : Alike t u) : Alike s u :=
  ⟨h.toSameNesting.trans h'.toSameNesting, fun i => (h.symbols i).trans (h'.symbols i), fun i => (h.home i).trans (h'.home i)⟩

theorem modify (s : Scopes) (i : Nat) (f : Scope → Scope) (hp : ∀ c, (f c).parent = c.parent)
    (hs : ∀ c, (f c).symbols = c.symbols) (hh : ∀ c, (f c).home = c.home) :
    Alike s (s.modify i f) :=
  ⟨⟨by simp, fun j => (field_modify s i f (·.parent) hp j).symm⟩, fun j => (field_modify s i f (·.symbols) hs j).symm,
    fun j => (field_modify s i f (·.home) hh j).symm⟩

theorem resolve_eq (h : Alike s t) (i : Nat) (name : String) : s.resolve i name = t.resolve i name := by
  simp only [resolve, h.chain_eq i, h.symbols]

theorem definer_eq (h : Alike s t) (i : Nat) (name : String) : s.definer i name = t.definer i name := by
  unfold definer
  rw [h.resolve_eq]
  congr 1
  funext ⟨j, sym⟩
  rcases sym with _ | f
  · rfl
  · simp only [homeOf, h.home]

end Alike

end JsMinify.Scopes
