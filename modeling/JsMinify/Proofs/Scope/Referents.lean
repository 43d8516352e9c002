import JsMinify.Proofs.Parser.Uses
import JsMinify.Proofs.Scope.Mangling
import Mathlib.Data.List.Zip

/-!
# What renamed names refer to

After renaming, a symbol is shown by its new name, or by its own if its scope keeps its names.
`resolveShown` looks a name up among the shown ones, the way `resolve` does among the defined ones. A
name that is declared still refers to the symbol it referred to before (`mangle_keeps_referent`). A name
that no scope declares keeps its text, but nothing keeps a scope around it from giving that text to a
symbol of its own: `mangle_captures_iff` says when this happens.
-/

namespace JsMinify

open List Binding Names Node Scopes

variable {bound n out tree : Node} {plain scopes s t : Scopes} {new name : String} {m : Mark} {i j : Nat} {toplevel : Bool}

namespace Scopes

/-- The name by which a symbol of a scope is shown. -/
def shownName (s : Scopes) (j : Nat) (name : String) : String :=
  ((s.get j).mangled.lookup name).getD name

/-- The symbol of a scope that is shown by a name, with its own name. -/
def shownSymbol? (s : Scopes) (j : Nat) (shown : String) : Option (String × Symbol) :=
  (s.get j).symbols.find? fun e => s.shownName j e.1 = shown

/-- The symbol that a shown name stands for in a scope, with the scope that holds it. -/
def resolveShown (s : Scopes) (i : Nat) (shown : String) : Option (Nat × String × Symbol) :=
  (s.chain i).findSome? fun j => (s.shownSymbol? j shown).map fun e => (j, e)

/-- A name on whose way from `i` to its scope `d` every scope knows of the reference. -/
structure Way (s : Scopes) (i : Nat) (name : String) (a : List Nat) (d : Nat) (b : List Nat)
    (sym : Symbol) : Prop where
  inside : i < s.all.length
  chain : s.chain i = a ++ d :: b
  undefined : ∀ j ∈ a, (s.get j).symbols.lookup name = none
  defined : (s.get d).symbols.lookup name = some sym
  noted : ∀ j ∈ a, ((s.get j).refs.lookup name).isSome

/-- Scopes in which all references are noted: each can be followed to the symbol that is meant. -/
structure Referenced (s : Scopes) : Prop extends Nested s where
  homed : s.Homed
  keys : ∀ j, (keys (s.get j).symbols).Nodup
  ways : ∀ j x e, (s.get j).refs.lookup x = some e → ∃ a b sym, s.Way j x a e b sym

/-- Scopes in which all references are noted and all new names given. -/
structure Finished (s : Scopes) (toplevel : Bool) : Prop extends Referenced s where
  settled : ∀ j < s.all.length, Settled s toplevel j

theorem Way.resolve_eq {d : Nat} {a b : List Nat} {sym : Symbol}
    (w : s.Way i name a d b sym) : s.resolve i name = some (d, sym) :=
  resolve_eq_some_iff.2 ⟨a, b, w.chain, w.undefined, w.defined⟩

/-- The scopes of a program whose references are noted. -/
theorem referenced_of_refers (hb : Built s) (ha : Alike s t) {os : List Occurrence} (hp : ∀ o ∈ os, Placed s o)
    (hrefs : ∀ j x e, (t.get j).refs.lookup x = some e ↔ ∃ o ∈ os, o.1 = x ∧ t.Refers o j e) : t.Referenced := by
  have hnested := ha.nested hb.toNested
  refine ⟨hnested, ha.homed hb.home, fun j => by rw [← ha.symbols]; exact hb.keys j, fun j x e he => ?_⟩
  obtain ⟨o, ho, rfl, href⟩ := (hrefs j x e).1 he
  have hlt : ∀ i, o.2.scope = some i → i < t.all.length := by
    intro k hk
    obtain ⟨i, hi, hlt, -⟩ := hp o ho
    rw [← ha.length]
    exact Option.some.inj (hi.symm.trans hk) ▸ hlt
  obtain ⟨hj, sym, hr⟩ := href.resolve_eq hnested hlt
  obtain ⟨a, b, hc, hundefined, hdefined⟩ := resolve_eq_some_iff.1 hr
  refine ⟨a, b, sym, hj, hc, hundefined, hdefined, fun k hk => ?_⟩
  obtain ⟨hkj, hek⟩ := (hnested.mem_way_iff hj hc).1 (mem_append_left [e] hk)
  rw [(hrefs k o.1 e).2 ⟨o, ho, rfl, href.outward hnested hlt hkj hek⟩]
  rfl

/-! ## One scope -/

theorem shownName_of_unnamed (h : Unnamed s j) (name : String) : s.shownName j name = name := by
  rw [shownName, h.fields.1]
  rfl

variable {α : Type} {xs : List α}

section NamesGiven

variable {q : Nat} {names : List String}

theorem mem_zip_swap {β : Type} {ys : List β} {x : α} {y : β} : (x, y) ∈ xs.zip ys ↔ (y, x) ∈ ys.zip xs := by
  rw [← zip_swap ys xs, mem_map]
  constructor
  · rintro ⟨⟨b, a⟩, hm, he⟩
    cases he
    exact hm
  · exact fun hm => ⟨(y, x), hm, rfl⟩

/-- The two tables of new names are inverse to each other. -/
theorem NamesGiven.mangled_iff (h : NamesGiven s j q names) (hn : names.Nodup) :
    (s.get j).mangled.lookup name = some new ↔ (s.get j).unmangled.lookup new = some name := by
  rw [h.mangled, h.unmangled, lookup_eq_some_iff (by rwa [keys_zip h.length]),
    lookup_eq_some_iff (by rw [keys_zip h.length.symm]; exact (nodup_first q).filter _), mem_zip_swap]

theorem NamesGiven.exists_mangled (h : NamesGiven s j q names) (hm : name ∈ names) :
    ∃ new, (s.get j).mangled.lookup name = some new := by
  rw [← Option.isSome_iff_exists, lookup_isSome_iff, h.mangled, keys_zip h.length]
  exact hm

theorem NamesGiven.unmangled_isSome_iff (h : NamesGiven s j q names) :
    ((s.get j).unmangled.lookup new).isSome ↔ new ∈ first q ∧ s.isFree j new := by
  rw [lookup_isSome_iff, h.unmangled, keys_zip h.length.symm, mem_filter]

end NamesGiven

theorem shownSymbol?_eq_some {e : String × Symbol} (hm : e ∈ (s.get j).symbols)
    (hu : ∀ e' ∈ (s.get j).symbols, s.shownName j e'.1 = s.shownName j e.1 → e' = e) :
    s.shownSymbol? j (s.shownName j e.1) = some e := by
  unfold shownSymbol?
  cases hf : (s.get j).symbols.find? fun e' => s.shownName j e'.1 = s.shownName j e.1 with
  | none =>
    have := find?_eq_none.1 hf e hm
    simp at this
  | some e' =>
    have hp := find?_some hf
    rw [hu e' (mem_of_find?_eq_some hf) (by simpa using hp)]

section Finished

/-- A scope that gives new names shows exactly those. -/
theorem Finished.shown_of_renamed (h : s.Finished toplevel) (hr : Renamed s j) :
    (s.shownSymbol? j new).isSome ↔ ((s.get j).unmangled.lookup new).isSome := by
  obtain ⟨q, hg⟩ := hr
  rw [shownSymbol?, find?_isSome, Option.isSome_iff_exists]
  constructor
  · rintro ⟨e, he, hs⟩
    obtain ⟨w, hw⟩ := hg.exists_mangled (mem_map.2 ⟨e, he, rfl⟩)
    refine ⟨e.1, (hg.mangled_iff (h.keys j)).1 ?_⟩
    rw [shownName, hw, Option.getD_some, decide_eq_true_eq] at hs
    rw [hw, hs]
  · rintro ⟨name, hn⟩
    have hm := (hg.mangled_iff (h.keys j)).2 hn
    have hk : name ∈ JsMinify.keys (s.get j).symbols := by
      rw [← keys_zip hg.length, ← hg.mangled, ← lookup_isSome_iff, hm]
      rfl
    obtain ⟨e, he, rfl⟩ := mem_map.1 hk
    exact ⟨e, he, by simp [shownName, hm]⟩

/-- No two symbols of a scope are shown by one name. -/
theorem Finished.shownName_inj (h : s.Finished toplevel) (hj : j < s.all.length)
    {e e' : String × Symbol} (he : e ∈ (s.get j).symbols) (he' : e' ∈ (s.get j).symbols)
    (hs : s.shownName j e'.1 = s.shownName j e.1) : e' = e := by
  have hname : e'.1 = e.1 := by
    rcases h.settled j hj with ⟨-, hu⟩ | ⟨-, q, hg⟩
    · rwa [shownName_of_unnamed hu, shownName_of_unnamed hu] at hs
    · obtain ⟨w, hw⟩ := hg.exists_mangled (mem_map.2 ⟨e, he, rfl⟩)
      obtain ⟨w', hw'⟩ := hg.exists_mangled (mem_map.2 ⟨e', he', rfl⟩)
      simp only [shownName, hw, hw', Option.getD_some] at hs
      have h₁ := (hg.mangled_iff (h.keys j)).1 hw
      have h₂ := (hg.mangled_iff (h.keys j)).1 hw'
      rw [hs, h₁] at h₂
      exact (Option.some.inj h₂).symm
  have h₁ := (lookup_eq_some_iff (h.keys j)).2 (show (e.1, e.2) ∈ _ from he)
  have h₂ := (lookup_eq_some_iff (h.keys j)).2 (show (e'.1, e'.2) ∈ _ from he')
  rw [hname, h₁] at h₂
  exact Prod.ext hname (Option.some.inj h₂).symm

/-! ## The way to a symbol -/

theorem Finished.lt_of_mem_chain (h : s.Finished toplevel) (hi : i < s.all.length) (hj : j ∈ s.chain i) : j < s.all.length :=
  Nat.lt_of_le_of_lt (h.le_of_mem_chain hi hj) hi

variable {d : Nat} {a b : List Nat} {sym : Symbol}

/-- Only the outermost scope can keep its names. -/
theorem Way.renamed (w : Way s i name a d b sym) (h : s.Referenced) (hj : j ∈ a)
    (hs : Settled s toplevel j) : Renamed s j := by
  obtain ⟨a₁, a₂, rfl⟩ := append_of_mem hj
  have hc : s.chain i = a₁ ++ j :: (a₂ ++ d :: b) := by simp [w.chain]
  rcases hs with ⟨⟨hp, -⟩, -⟩ | ⟨-, hr⟩
  · have := h.parent_isSome_of_split w.inside hc
    rw [hp] at this
    cases this
  · exact hr

theorem Way.refs_eq (w : Way s i name a d b sym) (h : s.Referenced) (hj : j ∈ a) : (s.get j).refs.lookup name = some d := by
  obtain ⟨e, he⟩ := Option.isSome_iff_exists.1 (w.noted j hj)
  obtain ⟨a', b', sym', w'⟩ := h.ways j name e he
  have hd := (h.resolve_on_way w.inside w.chain w.undefined w.defined (mem_append_left [d] hj)).2
  rw [w'.resolve_eq] at hd
  rw [he, (Prod.mk.inj (Option.some.inj hd)).1]

theorem find?_first {p : α → Bool} {ys : List α} {y : α} (hx : ∀ x ∈ xs, p x = false)
    (hy : p y) : (xs ++ y :: ys).find? p = some y := by
  rw [find?_append, find?_eq_none.2 fun x hm => by simp [hx x hm], Option.none_or, find?_cons_of_pos hy]

/-- A scope on the way gives no symbol the name of one that keeps its own. -/
theorem Way.not_free_of_kept (w : Way s i name a d b sym) (h : s.Referenced)
    (hu : Unnamed s d) (hj : j ∈ a) : s.isFree j name = false := by
  obtain ⟨a₁, a₂, rfl⟩ := append_of_mem hj
  have hc : s.chain i = a₁ ++ j :: (a₂ ++ d :: b) := by simp [w.chain]
  have hf : s.aroundWithSymbol j name = some d := by
    rw [aroundWithSymbol, h.around_suffix w.inside hc]
    refine find?_first (fun k hk => ?_) ?_
    · rw [contains, w.undefined k (by simp [hk])]
      rfl
    · rw [contains, w.defined]
      rfl
  have hh : s.hidesSymbol j name := by
    simp only [hidesSymbol, hf, w.refs_eq h hj, hu.fields.1]
    simp
  simp [isFree, hh]

/-- A scope on the way gives no symbol the new name of the one referred to, provided that the scopes
further out on the way do not. -/
theorem Way.not_free_of_mangled (w : Way s i name a d b sym) (h : s.Referenced)
    (hd : (s.get d).unmangled.lookup new = some name) {a₁ a₂ : List Nat} (ha : a = a₁ ++ j :: a₂)
    (hout : ∀ k ∈ a₂, (s.get k).unmangled.lookup new = none) : s.isFree j new = false := by
  have hc : s.chain i = a₁ ++ j :: (a₂ ++ d :: b) := by simp [w.chain, ha]
  have hf : s.aroundWithMangled j new = some d := by
    rw [aroundWithMangled, h.around_suffix w.inside hc]
    exact find?_first (fun k hk => by simp [hout k hk]) (by simp [hd])
  have hh : s.hidesMangled j new := by
    simp [hidesMangled, hf, hd, w.refs_eq h (show j ∈ a by simp [ha])]
  simp [isFree, hh]

theorem Renamed.unmangled_eq_none (hr : Renamed s j) (hf : s.isFree j new = false) :
    (s.get j).unmangled.lookup new = none := by
  obtain ⟨q, hg⟩ := hr
  rw [← Option.not_isSome_iff_eq_none, hg.unmangled_isSome_iff, hf]
  simp

/-- No scope on the way gives away the new name of the symbol referred to. -/
theorem Way.unmangled_eq_none (w : Way s i name a d b sym) (h : s.Referenced)
    (hd : (s.get d).unmangled.lookup new = some name) (a₁ a₂ : List Nat) (ha : a = a₁ ++ a₂)
    (hs : ∀ j ∈ a₂, Settled s toplevel j) : ∀ j ∈ a₂, (s.get j).unmangled.lookup new = none := by
  -- From the scope that holds the symbol inwards: each scope has to see past those already settled.
  induction a₂ generalizing a₁ with
  | nil => simp
  | cons j a₂ ih =>
    obtain ⟨hj, hrest⟩ := forall_mem_cons.1 hs
    have hout := ih (a₁ ++ [j]) (by simp [ha]) hrest
    refine forall_mem_cons.2 ⟨?_, hout⟩
    exact (w.renamed h (by simp [ha]) hj).unmangled_eq_none (w.not_free_of_mangled h hd ha hout)

/-- A symbol is found by its shown name, past every scope on the way to it. -/
theorem Way.resolveShown_eq (w : Way s i name a d b sym) (h : s.Finished toplevel) :
    s.resolveShown i (s.shownName d name) = some (d, name, sym) := by
  have hm : (name, sym) ∈ (s.get d).symbols := mem_of_lookup w.defined
  have hd : d < s.all.length := h.lt_of_mem_chain w.inside (by simp [w.chain])
  have hshown : s.shownSymbol? d (s.shownName d name) = some (name, sym) :=
    shownSymbol?_eq_some hm fun e' he' hs => h.shownName_inj hd hm he' hs
  have hsettled : ∀ j ∈ a, Settled s toplevel j := fun j hj =>
    h.settled j (h.lt_of_mem_chain w.inside (by rw [w.chain]; exact mem_append_left _ hj))
  have hway : ∀ j ∈ a, (s.get j).unmangled.lookup (s.shownName d name) = none := by
    rcases h.settled d hd with ⟨-, hu⟩ | ⟨-, q, hg⟩
    · intro j hj
      rw [shownName_of_unnamed hu]
      exact (w.renamed h.toReferenced hj (hsettled j hj)).unmangled_eq_none (w.not_free_of_kept h.toReferenced hu hj)
    · obtain ⟨new, hnew⟩ := hg.exists_mangled (mem_map.2 ⟨_, hm, rfl⟩)
      rw [shownName, hnew]
      exact w.unmangled_eq_none h.toReferenced ((hg.mangled_iff (h.keys d)).1 hnew) [] a rfl hsettled
  rw [resolveShown, findSome?_eq_some_iff]
  refine ⟨a, d, b, w.chain, by rw [hshown]; rfl, fun j hj => ?_⟩
  rw [Option.map_eq_none_iff, ← Option.not_isSome_iff_eq_none,
    h.shown_of_renamed (w.renamed h.toReferenced hj (hsettled j hj)), hway j hj]
  simp

end Finished

/-! ## Short names that a scope takes -/

/-- A scope takes a short name for one of its symbols: the name is free for it, and fewer free names
come before it than the scope has symbols. -/
def Takes (s : Scopes) (j : Nat) (x : String) : Prop :=
  ∃ r, words letters r 1 = [x] ∧ s.isFree j x ∧ ((words letters 0 r).filter (s.isFree j)).length < (s.get j).symbols.length

variable {x : String}

theorem Renamed.takes_iff (h : Renamed s j) : s.Takes j x ↔ ((s.get j).unmangled.lookup x).isSome := by
  obtain ⟨q, hg⟩ := h
  have hlen : (s.get j).symbols.length = ((first q).filter (s.isFree j)).length := by
    rw [← hg.length, keys, length_map]
  rw [hg.unmangled_isSome_iff, mem_first, Takes, hlen]
  constructor
  · rintro ⟨r, hx, hf, hlt⟩
    obtain ⟨qs, hqs, rfl⟩ := words_one_iff.1 hx
    refine ⟨⟨r, qs, ?_, hqs, rfl⟩, hf⟩
    rw [words_zero] at hlt
    rcases Nat.lt_or_ge r q with hr | hr
    · exact hr
    · have := ((first_isPrefix hr).filter (s.isFree j)).length_le
      omega
  · rintro ⟨⟨r, qs, hr, hqs, rfl⟩, hf⟩
    refine ⟨r, words_one_iff.2 ⟨qs, hqs, rfl⟩, hf, ?_⟩
    have hp := (first_isPrefix hr).filter (s.isFree j)
    rw [first_succ hqs, filter_append] at hp
    have := hp.length_le
    simp only [filter_cons, hf, if_true, length_append, filter_nil, length_singleton] at this
    rw [words_zero]
    omega

/-- A name that no scope on the chain defines is shown there exactly if one of them takes it. -/
theorem Finished.resolveShown_isSome_iff (h : s.Finished toplevel) (hi : i < s.all.length) (hr : s.resolve i x = none) :
    (s.resolveShown i x).isSome ↔ ∃ j ∈ s.chain i, ((s.get j).parent.isSome ∨ toplevel) ∧ s.Takes j x := by
  rw [resolveShown, findSome?_isSome_iff]
  refine exists_congr fun j => and_congr_right fun hj => ?_
  rw [Option.isSome_map]
  rcases h.settled j (h.lt_of_mem_chain hi hj) with ⟨⟨hp, ht⟩, hu⟩ | ⟨hk, hren⟩
  · have hnone : s.shownSymbol? j x = none := by
      rw [shownSymbol?, find?_eq_none]
      intro e he hs
      rw [shownName_of_unnamed hu, decide_eq_true_eq] at hs
      have hl := (lookup_eq_some_iff (h.keys j)).2 (show (e.1, e.2) ∈ _ from he)
      rw [hs, resolve_eq_none_iff.1 hr j hj] at hl
      cases hl
    simp [hnone, hp, ht]
  · have hk' : (s.get j).parent.isSome ∨ toplevel := by
      rw [KeepsNames] at hk
      cases hp : (s.get j).parent with
      | none => exact .inr (by simpa [hp] using hk)
      | some p => exact .inl rfl
    rw [h.shown_of_renamed hren, hren.takes_iff]
    exact ⟨fun ht => ⟨hk', ht⟩, fun ht => ht.2⟩

end Scopes

/-! ## Renamed programs -/

theorem mangleWithScopes_cases (h : n.mangleWithScopes toplevel = .ok (out, scopes)) :
    ∃ bound plain, n.bind = .ok (bound, plain) ∧ (plain.referAll bound).mangleTree 0 toplevel = some scopes ∧
      out = (bound.rename scopes.newName).forgetScopes := by
  unfold mangleWithScopes at h
  cases hb : n.bind with
  | error e =>
    rw [hb] at h
    cases h
  | ok r =>
    obtain ⟨bound, plain⟩ := r
    rw [hb] at h
    refine ⟨bound, plain, rfl, ?_⟩
    cases hm : (plain.referAll bound).mangleTree 0 toplevel with
    | none =>
      simp only [Bind.bind, Except.bind, hm] at h
      cases h
    | some s =>
      simp only [Bind.bind, Except.bind, hm] at h
      cases Except.ok.inj h
      exact ⟨rfl, rfl⟩

theorem mangle_eq_ok_iff : n.mangle toplevel = .ok out ↔ ∃ scopes, n.mangleWithScopes toplevel = .ok (out, scopes) := by
  rw [mangle]
  cases n.mangleWithScopes toplevel with
  | error e => exact ⟨nofun, nofun⟩
  | ok r =>
    constructor
    · intro h
      cases h
      exact ⟨r.2, rfl⟩
    · rintro ⟨scopes, h⟩
      cases h
      rfl

theorem mangleWithScopes_of_mangleTree (hb : n.bind = .ok (bound, plain))
    (hm : (plain.referAll bound).mangleTree 0 toplevel = some scopes) :
    n.mangleWithScopes toplevel = .ok ((bound.rename scopes.newName).forgetScopes, scopes) := by
  rw [mangleWithScopes, hb]
  simp only [Bind.bind, Except.bind, hm]
  rfl

/-- The scopes of a tree in which every name has its scope: the symbols are the names declared there, in their order, and
exactly the references of the tree are noted. -/
structure Noted (tree : Node) (s : Scopes) : Prop extends Referenced s where
  placed : ∀ o ∈ tree.names, Placed s o
  used : ∀ o ∈ tree.names, o.2.inExpr = true → o.2.candidate = true
  symbols : ∀ j, JsMinify.keys (s.get j).symbols = addNew [] (declaredIn j tree.names)
  refs : ∀ j x e, (s.get j).refs.lookup x = some e ↔ ∃ o ∈ tree.names, o.1 = x ∧ s.Refers o j e

/-- New names change nothing of this. -/
theorem Noted.alike (h : Noted tree s) (ha : Alike s t) (hrefs : ∀ j, (t.get j).refs = (s.get j).refs) : Noted tree t := by
  refine ⟨⟨ha.nested h.toNested, ha.homed h.homed, fun j => ha.symbols j ▸ h.keys j, fun j x e he => ?_⟩,
    fun o ho => Placed.alike (h.placed o ho) ha, h.used, fun j => ha.symbols j ▸ h.symbols j, fun j x e => ?_⟩
  · rw [hrefs] at he
    obtain ⟨a, b, sym, w⟩ := h.ways j x e he
    exact ⟨a, b, sym, ha.length ▸ w.inside, ha.chain_eq j ▸ w.chain, fun k hk => ha.symbols k ▸ w.undefined k hk,
      ha.symbols e ▸ w.defined, fun k hk => hrefs k ▸ w.noted k hk⟩
  · rw [hrefs, h.refs]
    simp only [ha.refers_iff]

/-- A program whose names are about to be replaced. -/
structure Prepared (tree : Node) (plain s : Scopes) : Prop extends Noted tree s where
  built : Built plain
  alike : Alike plain s
  unnamed : ∀ j, Unnamed s j

theorem prepared_of_bind (hm : Marked n) (hb : n.bind = .ok (bound, plain)) :
    Prepared bound plain (plain.referAll bound) := by
  obtain ⟨built, placed, same, symbols⟩ := bind_spec hm hb
  obtain ⟨alike, unnamed, refs⟩ := referAll_spec built placed
  simp only [alike.refers_iff] at refs
  have hused : ∀ o ∈ bound.names, o.2.inExpr → o.2.candidate := by
    intro o ho
    obtain ⟨o', ho', heq⟩ := mem_map.1 (same ▸ mem_map_of_mem (f := Binding.bare) ho)
    obtain ⟨-, hmark⟩ := Prod.mk.inj heq
    rw [Mark.mk.injEq] at hmark
    rw [← hmark.2.2.1, ← hmark.2.2.2.1]
    exact hm.candidate o' ho'
  exact ⟨⟨referenced_of_refers built alike placed refs, fun o ho => Placed.alike (placed o ho) alike, hused,
    fun j => alike.symbols j ▸ symbols j, refs⟩, built, alike, unnamed⟩

/-- What is known of it once they are. -/
theorem Prepared.finished (h : Prepared tree plain s)
    (hm : s.mangleTree 0 toplevel = some t) : Alike plain t ∧ Noted tree t ∧ t.Finished toplevel := by
  have done := mangleTree_spec h.built h.alike h.unnamed hm
  have noted := h.toNoted.alike done.toAlike done.refs
  exact ⟨h.alike.trans done.toAlike, noted, noted.toReferenced, fun j hj => done.settled j (done.length ▸ hj)⟩

/-- A renamed program: its scopes are finished, and its names are those of the program with the scopes
noted, each replaced in its place. -/
structure RenamedProgram (bound out : Node) (plain scopes : Scopes) (toplevel : Bool) : Prop where
  alike : Alike plain scopes
  finished : scopes.Finished toplevel
  placed : ∀ o ∈ bound.names, Placed plain o
  noted : Noted bound scopes
  names : out.names = bound.names.map fun o => (scopes.newName o.1 o.2, { o.2 with scope := none })

/-- What renaming makes of a program. -/
theorem mangleWithScopes_spec (hm : Marked n) (hb : n.bind = .ok (bound, plain))
    (h : n.mangleWithScopes toplevel = .ok (out, scopes)) : RenamedProgram bound out plain scopes toplevel := by
  obtain ⟨bound', plain', hb', hmangle, rfl⟩ := mangleWithScopes_cases h
  cases Except.ok.inj (hb.symm.trans hb')
  obtain ⟨-, placed, -, -⟩ := bind_spec hm hb
  obtain ⟨alike, noted, finished⟩ := (prepared_of_bind hm hb).finished hmangle
  refine ⟨alike, finished, placed, noted, ?_⟩
  rw [names_forgetScopes, names_rename, map_map]
  rfl

/-- The new name of a name that is open to renaming is the one by which its symbol is shown. -/
theorem newName_eq_shownName (hh : s.Homed) {d : Nat} {sym : Symbol} (hc : m.candidate)
    (hi : m.scope = some i) (hr : s.resolve i name = some (d, sym)) : s.newName name m = s.shownName d name := by
  simp [newName, hc, hi, hh.definer_eq, hr, shownName]

/-- A name is kept, or a scope that gives new names has one for it. -/
theorem Scopes.Finished.newName_cases (h : s.Finished toplevel) (x : String) (m : Mark) : s.newName x m = x ∨
    ∃ d q, NamesGiven s d q (keys (s.get d).symbols) ∧ (s.get d).mangled.lookup x = some (s.newName x m) := by
  unfold newName
  split
  · split
    · next i hi hc =>
      cases hn : (s.definer i x).bind fun d => (s.get d).mangled.lookup x with
      | none => exact .inl rfl
      | some new =>
        obtain ⟨d, -, hd⟩ := Option.bind_eq_some_iff.1 hn
        have hlt : d < s.all.length := by
          refine Nat.lt_of_not_le fun hle => ?_
          rw [s.get_of_length_le hle] at hd
          cases hd
        rcases h.settled d hlt with ⟨-, hu⟩ | ⟨-, q, hg⟩
        · rw [hu.fields.1] at hd
          cases hd
        · exact .inr ⟨d, q, hg, hd⟩
    · exact .inl rfl
  · exact .inl rfl

theorem newName_of_unresolved (hi : m.scope = some i) (hr : s.resolve i name = none) : s.newName name m = name := by
  simp [newName, hi, definer, hr]

/-- The way from an occurrence that is open to renaming to its symbol. -/
theorem RenamedProgram.way (h : RenamedProgram bound out plain scopes toplevel) {d : Nat}
    {sym : Symbol} (ho : (name, m) ∈ bound.names) (hc : m.candidate) (hi : m.scope = some i)
    (hr : scopes.resolve i name = some (d, sym)) : ∃ a b, scopes.Way i name a d b sym := by
  obtain ⟨i', hi', hlt, declared⟩ := h.placed _ ho
  cases hi.symm.trans hi'
  rw [h.alike.length] at hlt
  obtain ⟨a, b, hch, ha, hd⟩ := resolve_eq_some_iff.1 hr
  refine ⟨a, b, hlt, hch, ha, hd, ?_⟩
  cases he : m.inExpr with
  | true =>
    intro j hj
    have hway := (h.finished.mem_way_iff hlt hch).1 (mem_append_left [d] hj)
    rw [(h.noted.refs j name d).2 ⟨_, ho, rfl, he, i, sym, hi, hr, hway⟩]
    rfl
  | false =>
    -- A declared name is defined where it stands, so there is no scope on the way.
    have hdef := declared hc he
    cases a with
    | nil => simp
    | cons j a =>
      have hj : j = i := by
        have hch' := hch
        rw [h.finished.chain_eq hlt] at hch'
        exact (List.cons.inj hch').1.symm
      have := ha j mem_cons_self
      rw [hj, ← h.alike.symbols] at this
      rw [Scopes.contains, this] at hdef
      cases hdef

/-- A test of a text that is parsed and renamed. -/
def testRenamed (text : String) (toplevel : Bool) (test : Node → Scopes → Scopes → Bool) : Bool :=
  match (parse text).1 with
  | .error _ => false
  | .ok tree =>
    match tree.bind, tree.mangleWithScopes toplevel with
    | .ok (bound, plain), .ok (_, scopes) => test bound plain scopes
    | _, _ => false

theorem exists_of_testRenamed (text : String) (toplevel : Bool) (test : Node → Scopes → Scopes → Bool)
    (h : testRenamed text toplevel test) :
    ∃ tree p bound plain out scopes, parse text = (.ok tree, p) ∧ tree.bind = .ok (bound, plain) ∧
      tree.mangleWithScopes toplevel = .ok (out, scopes) ∧ test bound plain scopes := by
  unfold testRenamed at h
  split at h
  · cases h
  · next tree hp =>
    split at h
    · next bound plain out scopes hb hm =>
      exact ⟨tree, (parse text).2, bound, plain, out, scopes, Prod.ext hp rfl, hb, hm, h⟩
    · cases h

/-- The occurrence with a number is this name, in this scope and open to renaming. -/
def isOccurrence (bound : Node) (k : Nat) (name : String) (i : Nat) : Bool :=
  bound.names[k]?.any fun o => o.1 = name && o.2.scope = some i && o.2.candidate

theorem exists_of_isOccurrence {k : Nat} (h : isOccurrence bound k name i) :
    ∃ m, bound.names[k]? = some (name, m) ∧ m.scope = some i ∧ m.candidate := by
  unfold isOccurrence at h
  cases ho : bound.names[k]? with
  | none => simp [ho] at h
  | some o =>
    simp only [ho, Option.any_some, Bool.and_eq_true, decide_eq_true_eq] at h
    obtain ⟨⟨rfl, hi⟩, hc⟩ := h
    exact ⟨o.2, rfl, hi, hc⟩

/-- Renaming keeps what a declared name refers to: a name that is open to renaming and stands for the
symbol `sym` of scope `d` is replaced by a name that, looked up among the shown ones from the same
scope, leads to the same symbol of the same scope; and no other symbol of `d` is shown by it. -/
theorem mangle_keeps_referent {text : String} {tree bound out : Node} {p : Parser}
    {plain scopes : Scopes} {toplevel : Bool} {k i d : Nat} {name : String} {m : Mark} {sym : Symbol}
    (hparse : parse text = (.ok tree, p)) (hbind : tree.bind = .ok (bound, plain))
    (hmangle : tree.mangleWithScopes toplevel = .ok (out, scopes))
    (hk : bound.names[k]? = some (name, m)) (hc : m.candidate = true) (hi : m.scope = some i)
    (hr : plain.resolve i name = some (d, sym)) :
    Alike plain scopes ∧ ∃ new m', out.names[k]? = some (new, m') ∧ scopes.resolveShown i new = some (d, name, sym) ∧
      ∀ e ∈ (scopes.get d).symbols, scopes.shownName d e.1 = new → e = (name, sym) := by
  have renamed := mangleWithScopes_spec (parse_marked hparse) hbind hmangle
  rw [renamed.alike.resolve_eq] at hr
  obtain ⟨a, b, way⟩ := renamed.way (List.mem_of_getElem? hk) hc hi hr
  refine ⟨renamed.alike, scopes.newName name m, { m with scope := none }, ?_, ?_, ?_⟩
  · rw [renamed.names, List.getElem?_map, hk]
    rfl
  · rw [newName_eq_shownName renamed.finished.homed hc hi hr]
    exact way.resolveShown_eq renamed.finished
  · rw [newName_eq_shownName renamed.finished.homed hc hi hr]
    have hd : d < scopes.all.length :=
      renamed.finished.lt_of_mem_chain way.inside (by simp [way.chain])
    exact fun e he hs => renamed.finished.shownName_inj hd (mem_of_lookup way.defined) he hs

/-- The inner `a` refers to the outer variable, which keeps its name, so `x` is not renamed to `a`. -/
theorem mangle_keeps_outer_variable :
    ∃ tree p bound plain out scopes m, parse "var a=1;function f(x){return a+x;}" = (.ok tree, p) ∧
      tree.bind = .ok (bound, plain) ∧ tree.mangleWithScopes false = .ok (out, scopes) ∧
      bound.names[3]? = some ("a", m) ∧ m.candidate = true ∧ m.scope = some 1 ∧
      plain.resolve 1 "a" = some (0, .variable) ∧ scopes.shownName 1 "x" = "b" ∧
      ∃ new m', out.names[3]? = some (new, m') ∧ scopes.resolveShown 1 new = some (0, "a", .variable) := by
  obtain ⟨tree, p, bound, plain, out, scopes, hp, hb, hm, ht⟩ := exists_of_testRenamed
    "var a=1;function f(x){return a+x;}" false
    (fun bound plain scopes => isOccurrence bound 3 "a" 1 &&
      plain.resolve 1 "a" = some (0, .variable) && scopes.shownName 1 "x" = "b")
    (by decide +kernel)
  simp only [Bool.and_eq_true, decide_eq_true_eq] at ht
  obtain ⟨⟨ho, hr⟩, hs⟩ := ht
  obtain ⟨m, hk, hi, hc⟩ := exists_of_isOccurrence ho
  obtain ⟨-, new, m', hout, hres, -⟩ := mangle_keeps_referent hp hb hm hk hc hi hr
  exact ⟨tree, p, bound, plain, out, scopes, m, hp, hb, hm, hk, hc, hi, hr, hs, new, m', hout, hres⟩

/-- A name that no scope declares keeps its text. It is captured exactly if some scope around it that
gives new names takes this text for a symbol of its own. -/
theorem mangle_captures_iff {text : String} {tree bound out : Node} {p : Parser}
    {plain scopes : Scopes} {toplevel : Bool} {k i : Nat} {name : String} {m : Mark}
    (hparse : parse text = (.ok tree, p)) (hbind : tree.bind = .ok (bound, plain))
    (hmangle : tree.mangleWithScopes toplevel = .ok (out, scopes))
    (hk : bound.names[k]? = some (name, m)) (hi : m.scope = some i)
    (hr : plain.resolve i name = none) :
    out.names[k]? = some (name, { m with scope := none }) ∧ ((scopes.resolveShown i name).isSome ↔ ∃ j ∈ scopes.chain i,
        ((scopes.get j).parent.isSome ∨ toplevel = true) ∧ scopes.Takes j name) := by
  have renamed := mangleWithScopes_spec (parse_marked hparse) hbind hmangle
  rw [renamed.alike.resolve_eq] at hr
  obtain ⟨i', hi', hlt, -⟩ := renamed.placed _ (List.mem_of_getElem? hk)
  cases hi.symm.trans hi'
  constructor
  · rw [renamed.names, List.getElem?_map, hk, Option.map_some, newName_of_unresolved hi hr]
  · exact renamed.finished.resolveShown_isSome_iff (renamed.alike.length ▸ hlt) hr

/-- The parameter `x` takes the name `a`, which captures the `a` that no scope declares. -/
theorem mangle_captures_undeclared : ∃ tree p bound plain out scopes m, parse "function f(x){return a+x;}" = (.ok tree, p) ∧
      tree.bind = .ok (bound, plain) ∧ tree.mangleWithScopes false = .ok (out, scopes) ∧
      bound.names[2]? = some ("a", m) ∧ m.scope = some 1 ∧ plain.resolve 1 "a" = none ∧
      out.names[2]? = some ("a", { m with scope := none }) ∧
      scopes.resolveShown 1 "a" = some (1, "x", .variable) ∧
      ∃ j ∈ scopes.chain 1, ((scopes.get j).parent.isSome ∨ false = true) ∧ scopes.Takes j "a" := by
  obtain ⟨tree, p, bound, plain, out, scopes, hp, hb, hm, ht⟩ := exists_of_testRenamed "function f(x){return a+x;}" false
    (fun bound plain scopes => isOccurrence bound 2 "a" 1 &&
      plain.resolve 1 "a" = none && scopes.resolveShown 1 "a" = some (1, "x", .variable))
    (by decide +kernel)
  simp only [Bool.and_eq_true, decide_eq_true_eq] at ht
  obtain ⟨⟨ho, hr⟩, hs⟩ := ht
  obtain ⟨m, hk, hi, -⟩ := exists_of_isOccurrence ho
  obtain ⟨hout, hiff⟩ := mangle_captures_iff hp hb hm hk hi hr
  exact ⟨tree, p, bound, plain, out, scopes, m, hp, hb, hm, hk, hi, hr, hout, hs, hiff.1 (by rw [hs]; rfl)⟩

end JsMinify
