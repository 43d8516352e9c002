import JsMinify.Proofs.Scope.Chain

/-!
# Building scopes

`Built` says what holds of the scopes while they are found: every scope but the first lies inside an
earlier one, a function is a symbol of one scope only, which is its home, and nothing is noted about
references and new names yet. Making a scope and defining a symbol keep it. `Grows` says that scopes
and definitions are only ever added.
-/

namespace JsMinify.Scopes

/-- What holds of scopes while they are found. -/
structure Built (s : Scopes) : Prop extends Nested s where
  pos : 0 < s.all.length
  root : ∀ i < s.all.length, (s.get i).parent = none → i = 0
  keys : ∀ i, (JsMinify.keys (s.get i).symbols).Nodup
  made : ∀ i x f, (s.get i).symbols.lookup x = some (.function f) → f < s.all.length
  home : ∀ i x f, (s.get i).symbols.lookup x = some (.function f) → (s.get f).home = some i
  unnoted : ∀ i, (s.get i).refs = []
  unnamed : ∀ i, (s.get i).mangled = [] ∧ (s.get i).unmangled = [] ∧ (s.get i).drawn = []

/-- Scopes and definitions are only added. -/
structure Grows (s t : Scopes) : Prop where
  length : s.all.length ≤ t.all.length
  contains : ∀ i x, s.contains i x → t.contains i x

theorem Grows.refl (s : Scopes) : Grows s s := ⟨Nat.le_refl _, fun _ _ h => h⟩

theorem Grows.trans {s t u : Scopes} (h : Grows s t) (h' : Grows t u) : Grows s u :=
  ⟨Nat.le_trans h.length h'.length, fun i x hx => h'.contains i x (h.contains i x hx)⟩

theorem contains_iff_mem_keys {s : Scopes} {i : Nat} {x : String} :
    s.contains i x ↔ x ∈ keys (s.get i).symbols := lookup_isSome_iff

section Define

variable (s : Scopes) (i : Nat) (x : String) (sym : Symbol)

@[simp] theorem length_define : (s.define i x sym).all.length = s.all.length := by
  rcases sym with _ | f <;> simp [define]

theorem symbols_define (j : Nat) : ((s.define i x sym).get j).symbols =
      if i = j ∧ j < s.all.length then putKey x sym (s.get j).symbols else (s.get j).symbols := by
  rcases sym with _ | f
  · simp only [define, get_modify]
    split <;> rfl
  · refine (field_modify _ f _ (·.symbols) ?_ j).trans ?_
    · exact fun _ => rfl
    · rw [get_modify]
      split <;> rfl

theorem home_define (j : Nat) : ((s.define i x sym).get j).home =
      if sym = .function j ∧ j < s.all.length then some i else (s.get j).home := by
  rcases sym with _ | f
  · rw [if_neg (by simp)]
    refine field_modify s i _ (·.home) ?_ j
    exact fun _ => rfl
  · simp only [define, get_modify, length_modify, Symbol.function.injEq]
    by_cases hf : f = j ∧ j < s.all.length
    · rw [if_pos hf, if_pos hf]
    · rw [if_neg hf, if_neg hf]
      split <;> rfl

/-- A field that definitions do not concern. -/
theorem field_define {α : Type} (field : Scope → α) (hs : ∀ c t, field { c with symbols := t } = field c)
    (hh : ∀ c h, field { c with home := h } = field c) (j : Nat) :
    field ((s.define i x sym).get j) = field (s.get j) := by
  rcases sym with _ | f
  · exact field_modify s i _ field (fun c => hs c _) j
  · exact (field_modify _ f _ field (fun c => hh c _) j).trans (field_modify s i _ field (fun c => hs c _) j)

theorem parent_define (j : Nat) : ((s.define i x sym).get j).parent = (s.get j).parent :=
  field_define s i x sym (·.parent) (fun _ _ => rfl) (fun _ _ => rfl) j

end Define

variable {s : Scopes}

theorem Grows.define (s : Scopes) (i : Nat) (x : String) (sym : Symbol) : Grows s (s.define i x sym) := by
  refine ⟨by simp, fun j y hy => ?_⟩
  rw [contains_iff_mem_keys] at hy ⊢
  rw [symbols_define]
  split
  · rw [keys_putKey]
    split
    · exact hy
    · exact List.mem_append_left _ hy
  · exact hy

theorem contains_define (h : i < s.all.length) (x : String) (sym : Symbol) : (s.define i x sym).contains i x := by
  rw [Scopes.contains, symbols_define, if_pos ⟨rfl, h⟩]
  simp

/-- Defining a variable, or a function that is no symbol yet. -/
theorem Built.define (h : Built s) {i : Nat} (x : String) {sym : Symbol} (hi : i < s.all.length)
    (hf : ∀ f, sym = .function f → f < s.all.length ∧
      ∀ j y, (s.get j).symbols.lookup y ≠ some (.function f)) : Built (s.define i x sym) := by
  -- What a name finds afterwards is the new symbol, or was there before.
  have found : ∀ j y f, ((s.define i x sym).get j).symbols.lookup y = some (.function f) →
      (j = i ∧ sym = .function f) ∨ (s.get j).symbols.lookup y = some (.function f) := by
    intro j y f hy
    rw [symbols_define] at hy
    split at hy
    · next hj =>
      rw [lookup_putKey] at hy
      split at hy
      · exact .inl ⟨hj.1.symm, Option.some.inj hy⟩
      · exact .inr hy
    · exact .inr hy
  refine ⟨⟨fun j p hp => h.parent_lt j p (by rwa [parent_define] at hp)⟩, by simpa using h.pos,
    fun j hj hp => h.root j (by simpa using hj) (by rwa [parent_define] at hp), fun j => ?_,
    fun j y f hy => ?_, fun j y f hy => ?_, fun j => ?_, fun j => ?_⟩
  · rw [symbols_define]
    split
    · exact nodup_keys_putKey (h.keys j) _ _
    · exact h.keys j
  · rcases found j y f hy with ⟨-, hs⟩ | hy
    · simpa using (hf f hs).1
    · simpa using h.made j y f hy
  · rw [home_define]
    rcases found j y f hy with ⟨rfl, hs⟩ | hy
    · rw [if_pos ⟨hs, (hf f hs).1⟩]
    · rw [if_neg fun hs => (hf f hs.1).2 j y hy]
      exact h.home j y f hy
  · rw [field_define s i x sym (·.refs) (fun _ _ => rfl) (fun _ _ => rfl) j]
    exact h.unnoted j
  · rw [field_define s i x sym (·.mangled) (fun _ _ => rfl) (fun _ _ => rfl) j,
      field_define s i x sym (·.unmangled) (fun _ _ => rfl) (fun _ _ => rfl) j,
      field_define s i x sym (·.drawn) (fun _ _ => rfl) (fun _ _ => rfl) j]
    exact h.unnamed j

section New

variable (s) (kind : ScopeKind) (name : Option String)

@[simp] theorem length_new (parent : Option Nat) : (s.new kind name parent).2.all.length = s.all.length + 1 := by
  simp [new]

theorem symbols_new (parent : Option Nat) (j : Nat) : ((s.new kind name parent).2.get j).symbols = (s.get j).symbols := by
  rw [get_new]
  split
  · next hj => rw [hj, get_of_length_le s (Nat.le_refl _)]
  · rfl

theorem Grows.new (parent : Option Nat) : Grows s (s.new kind name parent).2 := by
  refine ⟨by simp, fun j x hx => ?_⟩
  rw [Scopes.contains, symbols_new]
  exact hx

variable {s}

theorem Built.new (h : Built s) {p : Nat} (hp : p < s.all.length) : Built (s.new kind name (some p)).2 := by
  have hn := get_new s kind name (some p)
  refine ⟨⟨fun i q hq => ?_⟩, by simp, fun i hi hq => ?_, fun i => ?_, fun i x f hx => ?_,
    fun i x f hx => ?_, fun i => ?_, fun i => ?_⟩
  · rw [hn] at hq
    split at hq
    · next hi =>
      cases hq
      omega
    · exact h.parent_lt i q hq
  · rw [hn] at hq
    rw [length_new] at hi
    split at hq
    · cases hq
    · exact h.root i (by omega) hq
  · rw [symbols_new]
    exact h.keys i
  · rw [symbols_new] at hx
    have := h.made i x f hx
    rw [length_new]
    omega
  · rw [symbols_new] at hx
    have := h.made i x f hx
    rw [hn, if_neg (by omega)]
    exact h.home i x f hx
  · rw [hn]
    split
    · rfl
    · exact h.unnoted i
  · rw [hn]
    split
    · exact ⟨rfl, rfl, rfl⟩
    · exact h.unnamed i

end New

/-- The outermost scope alone. -/
theorem Built.outermost : Built (({} : Scopes).new .outermost none none).2 := by
  have hn := get_new {} .outermost none none
  have hg : ∀ i, ((({} : Scopes).new .outermost none none).2.get i).symbols = [] := by
    intro i
    rw [symbols_new]
    rfl
  refine ⟨⟨fun i q hq => ?_⟩, by simp, fun i hi _ => ?_, fun i => ?_, fun i x f hx => ?_,
    fun i x f hx => ?_, fun i => ?_, fun i => ?_⟩
  · rw [hn] at hq
    split at hq <;> cases hq
  · rw [length_new] at hi
    simp only [List.length_nil] at hi
    omega
  · rw [hg]
    exact List.nodup_nil
  · simp [hg] at hx
  · simp [hg] at hx
  · rw [hn]
    split <;> rfl
  · rw [hn]
    split <;> exact ⟨rfl, rfl, rfl⟩

/-- The scope of a function made inside another one, its name defined there. -/
theorem Built.enter (h : Built s) {c : Nat} (hc : c < s.all.length) (name : Option String) :
    let (f, t) := s.new .function name (some c)
    let t := match name with
      | some x => t.define c x (.function f)
      | none => t
    Built t ∧ Grows s t ∧ f < t.all.length ∧ ∀ x, name = some x → t.contains c x := by
  have hb := h.new .function name hc
  have hg := Grows.new s .function name (some c)
  have hf : (s.new .function name (some c)).1 < (s.new .function name (some c)).2.all.length := by
    rw [length_new]
    exact Nat.lt_succ_self _
  have hc' : c < (s.new .function name (some c)).2.all.length := by
    rw [length_new]
    omega
  cases name with
  | none => exact ⟨hb, hg, hf, by simp⟩
  | some x =>
    refine ⟨hb.define x hc' ?_, hg.trans (Grows.define ..), by simp, ?_⟩
    · rintro f ⟨⟩
      refine ⟨hf, fun j y hy => ?_⟩
      rw [symbols_new] at hy
      exact Nat.lt_irrefl _ (h.made j y _ hy)
    · rintro x ⟨⟩
      exact contains_define hc' x _

end JsMinify.Scopes
