import JsMinify.Proofs.Scope.Binding

/-!
# References

Once the references of a tree are noted, a scope knows of exactly those names that are referred to from
inside it and defined there or further out (`Refers`), and what it knows is right: a noted name stands for
the same symbol from this scope (`Consistent`). Later references never spoil earlier ones, because all of
them agree with `definer`.
-/

namespace JsMinify.Scopes

open List Binding

variable {d i j : Nat} {s t : Scopes} {a b : List Nat} {o : Occurrence} {name : String} {sym : Symbol}

/-- A function is a symbol of its home only. -/
def Homed (s : Scopes) : Prop :=
  ∀ i x f, (s.get i).symbols.lookup x = some (.function f) → (s.get f).home = some i

theorem Alike.homed (h : Alike s t) (hs : s.Homed) : t.Homed := by
  intro i x f hx
  rw [← h.home]
  exact hs i x f (by rw [h.symbols, hx])

/-- What a name stands for is defined where the name is found. -/
theorem Homed.definer_eq (h : s.Homed) (i : Nat) (x : String) : s.definer i x = (s.resolve i x).map (·.1) := by
  unfold definer
  cases hr : s.resolve i x with
  | none => rfl
  | some r =>
    obtain ⟨d, sym⟩ := r
    obtain ⟨-, -, -, -, hs⟩ := resolve_eq_some_iff.1 hr
    rcases sym with _ | f
    · rfl
    · simp only [Option.bind_some, homeOf, Option.map_some]
      exact h d x f hs

theorem Nested.lt_of_split (h : s.Nested) (hi : i < s.all.length) (hc : s.chain i = a ++ d :: b) (hj : j ∈ a) : d < j := by
  obtain ⟨a₁, a₂, rfl⟩ := append_of_mem hj
  have hc' : s.chain i = a₁ ++ j :: (a₂ ++ d :: b) := by simp [hc]
  have hl : j < s.all.length := by
    have := h.le_of_mem_chain hi (show j ∈ s.chain i by simp [hc'])
    omega
  exact h.lt_of_mem_around hl (by simp [h.around_suffix hi hc'])

/-- The way to a scope on the chain is what comes before its first occurrence. -/
theorem Nested.takeWhile_chain (h : s.Nested) (hi : i < s.all.length) (hc : s.chain i = a ++ d :: b) :
    (s.chain i).takeWhile (· != d) = a := by
  rw [hc, takeWhile_append_of_pos]
  · simp
  · intro j hj
    have := h.lt_of_split hi hc hj
    simp
    omega

/-- From every scope on the way a name stands for what it stands for from the innermost one. -/
theorem Nested.resolve_on_way (h : s.Nested) (hi : i < s.all.length) (hc : s.chain i = a ++ d :: b)
    (ha : ∀ j ∈ a, (s.get j).symbols.lookup name = none) (hs : (s.get d).symbols.lookup name = some sym) (hj : j ∈ a ++ [d]) :
    j < s.all.length ∧ s.resolve j name = some (d, sym) := by
  have hr := resolve_eq_some_iff.2 ⟨a, b, hc, ha, hs⟩
  have hsplit : ∃ a₁ b₁, s.chain i = a₁ ++ j :: b₁ ∧ ∀ k ∈ a₁, k ∈ a := by
    rcases mem_append.1 hj with hj | hj
    · obtain ⟨a₁, a₂, rfl⟩ := append_of_mem hj
      exact ⟨a₁, a₂ ++ d :: b, by simp [hc], fun k hk => mem_append_left _ hk⟩
    · obtain rfl := mem_singleton.1 hj
      exact ⟨a, b, hc, fun _ hk => hk⟩
  obtain ⟨a₁, b₁, hc₁, hsub⟩ := hsplit
  refine ⟨Nat.lt_of_le_of_lt (h.le_of_mem_chain hi (by simp [hc₁])) hi, ?_⟩
  rw [h.resolve_suffix hi hc₁ fun k hk => ha k (hsub k hk), hr]

/-! ## One reference -/

/-- The scopes after a name was noted in some of them. -/
def noteIn (name : String) (d : Nat) (s : Scopes) (js : List Nat) : Scopes :=
  js.foldl (fun s j => s.modify j fun c => { c with refs := putKey name d c.refs }) s

theorem noteIn_alike (name : String) (d : Nat) (js : List Nat) (s : Scopes) : Alike s (noteIn name d s js) := by
  induction js generalizing s with
  | nil => exact Alike.refl s
  | cons j js ih =>
    refine (Alike.modify s j _ ?_ ?_ ?_).trans (ih _) <;> exact fun _ => rfl

theorem refs_noteIn (name : String) (d : Nat) (js : List Nat) (s : Scopes) (k : Nat) (x : String) :
    ((noteIn name d s js).get k).refs.lookup x =
      if x = name ∧ k ∈ js ∧ k < s.all.length then some d else (s.get k).refs.lookup x := by
  induction js generalizing s with
  | nil => simp [noteIn]
  | cons j js ih =>
    have h := ih (s.modify j fun c => { c with refs := putKey name d c.refs })
    rw [length_modify, get_modify] at h
    show ((noteIn name d (s.modify j _) js).get k).refs.lookup x = _
    rw [h]
    by_cases hx : x = name
    · by_cases hk : k < s.all.length
      · by_cases hj : j = k
        · simp [hx, hk, hj]
        · simp [hx, hk, hj, Ne.symm hj]
      · simp [hk]
    · by_cases hj : j = k ∧ k < s.all.length
      · simp [hx, hj, lookup_putKey]
      · simp [hx, hj]

theorem nodup_keys_noteIn (h : ∀ j, (keys (s.get j).refs).Nodup) (name : String) (d : Nat) (js : List Nat) :
    ∀ j, (keys ((noteIn name d s js).get j).refs).Nodup := by
  induction js generalizing s with
  | nil => exact h
  | cons k js ih =>
    refine ih fun j => ?_
    rw [get_modify]
    split
    · exact nodup_keys_putKey (h j) name d
    · exact h j

/-- The new names that a scope gave its symbols. -/
def given (s : Scopes) (j : Nat) : List (String × String) × List (String × String) × List Nat :=
  ((s.get j).mangled, (s.get j).unmangled, (s.get j).drawn)

theorem given_noteIn (name : String) (d : Nat) (js : List Nat) (s : Scopes) (j : Nat) :
    (noteIn name d s js).given j = s.given j := by
  induction js generalizing s with
  | nil => rfl
  | cons k js ih =>
    refine (ih _).trans (field_modify s k _ (fun c => (c.mangled, c.unmangled, c.drawn)) ?_ j)
    exact fun _ => rfl

theorem given_refer (s : Scopes) (i : Nat) (name : String) (j : Nat) : (s.refer i name).2.given j = s.given j := by
  unfold refer
  split
  · rfl
  · exact given_noteIn name _ _ s j

/-- A reference is noted in the scopes on the way to the one that defines the name, and in that one. -/
theorem refer_eq (hn : s.Nested) (hh : s.Homed) (hi : i < s.all.length) (hc : s.chain i = a ++ d :: b)
    (ha : ∀ j ∈ a, (s.get j).symbols.lookup name = none) (hs : (s.get d).symbols.lookup name = some sym) :
    (s.refer i name).2 = noteIn name d s (a ++ [d]) := by
  have hd : s.definer i name = some d := by
    rw [hh.definer_eq, resolve_eq_some_iff.2 ⟨a, b, hc, ha, hs⟩]
    rfl
  simp only [refer, hd, hn.takeWhile_chain hi hc, noteIn]
  simp [hc]

theorem refer_unresolved (h : s.resolve i name = none) : (s.refer i name).2 = s := by
  simp [refer, definer, h]

/-- What is noted in a scope is right. -/
def Consistent (s : Scopes) : Prop := ∀ j x e, (s.get j).refs.lookup x = some e → s.definer j x = some e

/-- A name that stands as an expression means a symbol of scope `d`, and scope `j` lies on the way to it. -/
def Refers (s : Scopes) (o : Occurrence) (j d : Nat) : Prop :=
  o.2.inExpr = true ∧ ∃ i sym, o.2.scope = some i ∧ s.resolve i o.1 = some (d, sym) ∧ j ∈ s.chain i ∧ d ∈ s.chain j

theorem Alike.refers_iff (h : Alike s t) : s.Refers o j d ↔ t.Refers o j d := by
  simp only [Refers, h.resolve_eq, h.chain_eq]

/-- The scopes on the way to a scope of the chain are those of the chain that have it on theirs. -/
theorem Nested.mem_way_iff (h : s.Nested) (hi : i < s.all.length) (hc : s.chain i = a ++ d :: b) :
    j ∈ a ++ [d] ↔ j ∈ s.chain i ∧ d ∈ s.chain j := by
  have hlt : ∀ k ∈ s.chain i, k < s.all.length := fun k hk => Nat.lt_of_le_of_lt (h.le_of_mem_chain hi hk) hi
  constructor
  · intro hj
    rcases mem_append.1 hj with hj | hj
    · obtain ⟨a₁, a₂, rfl⟩ := append_of_mem hj
      have hc' : s.chain i = a₁ ++ j :: (a₂ ++ d :: b) := by simp [hc]
      exact ⟨by simp [hc'], by simp [h.chain_suffix hi hc']⟩
    · obtain rfl := mem_singleton.1 hj
      exact ⟨by simp [hc], by simp [h.chain_suffix hi hc]⟩
  · rintro ⟨hj, hd⟩
    rw [hc, append_cons, mem_append] at hj
    refine hj.resolve_right fun hb => ?_
    have hjd : j < d := h.lt_of_mem_around (hlt d (by simp [hc])) (by rwa [h.around_suffix hi hc])
    have := h.le_of_mem_chain (hlt j (by simp [hc, hb])) hd
    omega

/-- From every scope on the way a name stands for the symbol that is referred to. -/
theorem Refers.resolve_eq (hn : s.Nested) (hlt : ∀ i, o.2.scope = some i → i < s.all.length) (h : s.Refers o j d) :
    j < s.all.length ∧ ∃ sym, s.resolve j o.1 = some (d, sym) := by
  obtain ⟨-, i, sym, hi, hr, hj, hd⟩ := h
  obtain ⟨a, b, hc, ha, hs⟩ := resolve_eq_some_iff.1 hr
  obtain ⟨hjlt, hres⟩ := hn.resolve_on_way (hlt i hi) hc ha hs ((hn.mem_way_iff (hlt i hi) hc).2 ⟨hj, hd⟩)
  exact ⟨hjlt, sym, hres⟩

theorem Refers.definer_eq (hn : s.Nested) (hh : s.Homed) (hlt : ∀ i, o.2.scope = some i → i < s.all.length)
    (h : s.Refers o j d) : s.definer j o.1 = some d := by
  obtain ⟨-, sym, hr⟩ := h.resolve_eq hn hlt
  rw [hh.definer_eq, hr]
  rfl

/-- A reference that leads past a scope leads past the scopes around it on the way. -/
theorem Refers.outward (hn : s.Nested) {k : Nat} (hlt : ∀ i, o.2.scope = some i → i < s.all.length) (h : s.Refers o j d)
    (hk : k ∈ s.chain j) (hd : d ∈ s.chain k) : s.Refers o k d := by
  obtain ⟨he, i, sym, hi, hr, hj, -⟩ := h
  refine ⟨he, i, sym, hi, hr, ?_, hd⟩
  obtain ⟨a, b, hc⟩ := append_of_mem hj
  rw [hn.chain_suffix (hlt i hi) hc] at hk
  rw [hc]
  exact mem_append_right a hk

/-- What is noted once one reference more is. -/
theorem refs_refer (hn : s.Nested) (hh : s.Homed) (hc : s.Consistent) (he : o.2.inExpr) (hs : o.2.scope = some i)
    (hi : i < s.all.length) {e : Nat} {x : String} : ((s.refer i o.1).2.get j).refs.lookup x = some e ↔
      (s.get j).refs.lookup x = some e ∨ o.1 = x ∧ s.Refers o j e := by
  have hscope : ∀ k, o.2.scope = some k → k = i := fun k hk => Option.some.inj (hk.symm.trans hs)
  cases hr : s.resolve i o.1 with
  | none =>
    rw [refer_unresolved hr]
    refine ⟨.inl, fun h => h.resolve_right ?_⟩
    rintro ⟨-, -, k, sym, hk, hres, -⟩
    rw [hscope k hk, hr] at hres
    cases hres
  | some r =>
    obtain ⟨d, sym⟩ := r
    obtain ⟨a, b, hch, ha, hd⟩ := resolve_eq_some_iff.1 hr
    have hway := hn.mem_way_iff (j := j) hi hch
    rw [refer_eq hn hh hi hch ha hd, refs_noteIn]
    split
    · next h =>
      obtain ⟨rfl, hj, -⟩ := h
      have href : s.Refers o j d := ⟨he, i, sym, hs, hr, hway.1 hj⟩
      have hdef := href.definer_eq hn hh fun k hk => hscope k hk ▸ hi
      constructor
      · intro hde
        cases hde
        exact .inr ⟨rfl, href⟩
      · rintro (hold | ⟨-, -, k, sym', hk, hres, -⟩)
        · rw [← hdef, hc j _ e hold]
        · rw [hscope k hk, hr] at hres
          rw [(Prod.mk.inj (Option.some.inj hres)).1]
    · next h =>
      refine ⟨.inl, fun hor => hor.resolve_right ?_⟩
      rintro ⟨rfl, -, k, sym', hk, hres, hj, hdj⟩
      rw [hscope k hk] at hres hj
      obtain ⟨rfl, -⟩ := Prod.mk.inj (Option.some.inj (hr.symm.trans hres))
      exact h ⟨rfl, hway.2 ⟨hj, hdj⟩, Nat.lt_of_le_of_lt (hn.le_of_mem_chain hi hj) hi⟩

theorem refer_alike (s : Scopes) (i : Nat) (name : String) : Alike s (s.refer i name).2 := by
  unfold refer
  split
  · exact Alike.refl s
  · exact noteIn_alike name _ _ s

/-! ## All references of a tree -/

theorem Placed.alike (h : Placed s o) (ha : Alike s t) : Placed t o := by
  obtain ⟨i, hs, hi, hc⟩ := h
  exact ⟨i, hs, ha.length ▸ hi, fun h₁ h₂ => by simpa [Scopes.contains, ha.symbols] using hc h₁ h₂⟩

/-- Noting the references of some names. -/
def referNames (s : Scopes) (os : List Occurrence) : Scopes :=
  os.foldl (fun s (name, m) =>
    match m.scope with
    | some i => if m.inExpr then (s.refer i name).2 else s
    | none => s) s

/-- Noting the references of some names adds what they refer to. -/
theorem referNames_spec (os : List Occurrence) (hn : s.Nested) (hh : s.Homed) (hc : s.Consistent) (hp : ∀ o ∈ os, Placed s o) :
    Alike s (s.referNames os) ∧ ∀ j x e, ((s.referNames os).get j).refs.lookup x = some e ↔
      (s.get j).refs.lookup x = some e ∨ ∃ o ∈ os, o.1 = x ∧ s.Refers o j e := by
  induction os generalizing s with
  | nil => exact ⟨Alike.refl s, fun j x e => by simp [referNames]⟩
  | cons o os ih =>
    obtain ⟨i, hs, hi, -⟩ := hp o mem_cons_self
    by_cases he : o.2.inExpr
    · have alike := refer_alike s i o.1
      have hrefs := fun j x e => refs_refer (j := j) (x := x) (e := e) hn hh hc he hs hi
      have cons : (s.refer i o.1).2.Consistent := by
        intro j x e hx
        rw [← alike.definer_eq]
        rcases (hrefs j x e).1 hx with hold | ⟨rfl, href⟩
        · exact hc j x e hold
        · exact href.definer_eq hn hh fun k hk => Option.some.inj (hs.symm.trans hk) ▸ hi
      obtain ⟨alike', hrefs'⟩ := ih (alike.nested hn) (alike.homed hh) cons
        fun o ho => Placed.alike (hp o (mem_cons_of_mem _ ho)) alike
      have heq : s.referNames (o :: os) = (s.refer i o.1).2.referNames os := by
        simp [referNames, hs, he]
      rw [heq]
      refine ⟨alike.trans alike', fun j x e => ?_⟩
      rw [hrefs', hrefs, or_assoc]
      simp only [← alike.refers_iff, mem_cons, exists_eq_or_imp]
    · have heq : s.referNames (o :: os) = s.referNames os := by
        simp [referNames, hs, he]
      obtain ⟨alike', hrefs'⟩ := ih hn hh hc fun o ho => hp o (mem_cons_of_mem _ ho)
      rw [heq]
      refine ⟨alike', fun j x e => ?_⟩
      rw [hrefs']
      simp only [mem_cons, exists_eq_or_imp]
      have hno : ¬ s.Refers o j e := fun h => he h.1
      simp [hno]

theorem given_referNames (os : List Occurrence) (s : Scopes) (j : Nat) : (s.referNames os).given j = s.given j := by
  induction os generalizing s with
  | nil => rfl
  | cons o os ih =>
    refine (ih _).trans ?_
    simp only
    split
    · split
      · exact given_refer s _ _ j
      · rfl
    · rfl

theorem nodup_keys_referNames (os : List Occurrence) (h : ∀ j, (keys (s.get j).refs).Nodup) :
    ∀ j, (keys ((s.referNames os).get j).refs).Nodup := by
  induction os generalizing s with
  | nil => exact h
  | cons o os ih =>
    refine ih ?_
    simp only
    split
    · split
      · unfold refer
        split
        · exact h
        · exact nodup_keys_noteIn h _ _ _
      · exact h
    · exact h

/-- Once the references of a tree are noted, a scope knows of those that lead to it or past it. -/
theorem referAll_spec {tree : Node} (hb : Built s) (hp : ∀ o ∈ tree.names, Placed s o) :
    Alike s (s.referAll tree) ∧ (∀ j, (s.referAll tree).given j = ([], [], [])) ∧
      ∀ j x e, ((s.referAll tree).get j).refs.lookup x = some e ↔ ∃ o ∈ tree.names, o.1 = x ∧ s.Refers o j e := by
  have hempty : ∀ j x e, (s.get j).refs.lookup x ≠ some e := by
    intro j x e he
    rw [hb.unnoted] at he
    cases he
  obtain ⟨alike, hrefs⟩ := referNames_spec tree.names hb.toNested hb.home (fun j x e he => absurd he (hempty j x e)) hp
  refine ⟨alike, fun j => (given_referNames tree.names s j).trans ?_, fun j x e => ?_⟩
  · obtain ⟨hm, hu, hd⟩ := hb.unnamed j
    rw [given, hm, hu, hd]
  · exact (hrefs j x e).trans (or_iff_right (hempty j x e))

end JsMinify.Scopes
