import JsMinify.Proofs.Scope.Agreement
import JsMinify.Proofs.Scope.Notes

/-!
# Renaming a renamed program

The scopes of a renamed program hold the names that the first renaming shows, in the same order (`keys_renamed`), and
every reference of the program is one of the renamed program too (`refs_renamed`). There may be more: a name that no
scope declares can have been captured. But a captured name is declared in the scope that captured it or further in, so
it hides nothing that this scope gave its symbols. The second renaming finds the same names free, and
`mangle_mangle` says that it changes nothing.
-/

namespace JsMinify

open List Binding Names Node Scopes

/-- Names are added alike under other spellings that keep them apart. -/
theorem addNew_map {f : String → String} {known new : List String} (hf : Set.InjOn f {x | x ∈ known ∨ x ∈ new}) :
    addNew (known.map f) (new.map f) = (addNew known new).map f := by
  induction new generalizing known with
  | nil => rfl
  | cons x new ih =>
    have hmem : f x ∈ known.map f ↔ x ∈ known := by
      constructor
      · intro h
        obtain ⟨y, hy, hxy⟩ := mem_map.1 h
        rwa [← hf (.inl hy) (.inr mem_cons_self) hxy]
      · exact mem_map_of_mem
    have hstep : (if f x ∈ known.map f then known.map f else known.map f ++ [f x]) =
        (if x ∈ known then known else known ++ [x]).map f := by
      by_cases hx : x ∈ known <;> simp [hmem, hx]
    change addNew (if f x ∈ known.map f then known.map f else known.map f ++ [f x]) (new.map f) =
      (addNew (if x ∈ known then known else known ++ [x]) new).map f
    rw [hstep, ih (hf.mono fun y hy => ?_)]
    rcases hy with hy | hy
    · split at hy
      · exact .inl hy
      · rcases mem_append.1 hy with hy | hy
        · exact .inl hy
        · exact .inr (mem_singleton.1 hy ▸ mem_cons_self)
    · exact .inr (mem_cons_of_mem _ hy)

/-- A declared name is a symbol of its scope. -/
theorem Noted.resolve_declared {tree : Node} {s : Scopes} (h : Noted tree s) {o : Occurrence} (ho : o ∈ tree.names)
    (hc : o.2.candidate) (he : o.2.inExpr = false) {i : Nat} (hi : o.2.scope = some i) :
    ∃ sym, s.resolve i o.1 = some (i, sym) := by
  obtain ⟨i', hi', hlt, hdef⟩ := h.placed o ho
  cases hi.symm.trans hi'
  obtain ⟨sym, hsym⟩ := Option.isSome_iff_exists.1 (hdef hc he)
  exact ⟨sym, resolve_eq_some_iff.2 ⟨[], _, h.chain_eq hlt, by simp, hsym⟩⟩

section

variable {bound : Node} {s t : Scopes} {toplevel : Bool} (hs : s.Finished toplevel) (noted : Noted bound s)
  (noted' : Noted (bound.rename s.newName) t)

include hs noted noted'

/-- The symbols of a renamed program are the names shown. -/
theorem keys_renamed (j : Nat) : keys (t.get j).symbols = s.shownNames j := by
  have hdeclared : declaredIn j (bound.rename s.newName).names = (declaredIn j bound.names).map (s.shownName j) := by
    rw [names_rename, declaredIn, declaredIn, filter_map, map_map, map_map]
    refine map_congr_left fun o ho => ?_
    simp only [mem_filter, Function.comp_apply, Bool.and_eq_true, Bool.not_eq_true', decide_eq_true_eq] at ho
    obtain ⟨ho, ⟨hc, he⟩, hi⟩ := ho
    obtain ⟨sym, hr⟩ := noted.resolve_declared ho hc he hi
    exact newName_eq_shownName hs.homed hc hi hr
  have hkeys : ∀ x, x ∈ [] ∨ x ∈ declaredIn j bound.names → x ∈ keys (s.get j).symbols := fun x hx => by
    rw [noted.symbols, mem_addNew]
    exact hx
  rw [noted'.symbols, hdeclared, shownNames, noted.symbols]
  exact addNew_map ((hs.injOn_shownName j).mono hkeys)

variable (nesting : SameNesting s t) {e : Nat} {x : String}

include nesting

/-- A name that is found among the shown ones is found among the symbols of the renamed program. -/
theorem resolve_renamed {i : Nat} {r : String × Symbol} (h : s.resolveShown i x = some (e, r)) :
    ∃ sym, t.resolve i x = some (e, sym) := by
  have hsome : ∀ j, ((t.get j).symbols.lookup x).isSome ↔ (s.shownSymbol? j x).isSome := fun j => by
    rw [lookup_isSome_iff, keys_renamed hs noted noted', shownSymbol?_isSome_iff]
  obtain ⟨a, d, b, hc, hd, ha⟩ := findSome?_eq_some_iff.1 h
  obtain ⟨r', hr', heq⟩ := Option.map_eq_some_iff.1 hd
  obtain ⟨rfl, rfl⟩ := Prod.mk.inj heq
  obtain ⟨sym, hsym⟩ := Option.isSome_iff_exists.1 ((hsome d).2 (by rw [hr']; rfl))
  refine ⟨sym, resolve_eq_some_iff.2 ⟨a, b, nesting.chain_eq i ▸ hc, fun j hj => ?_, hsym⟩⟩
  rw [← Option.not_isSome_iff_eq_none, hsome, Option.not_isSome_iff_eq_none]
  exact Option.map_eq_none_iff.1 (ha j hj)

/-- The references of a program are references of the renamed program. -/
theorem refs_renamed {j : Nat} (h : (s.get j).refs.lookup x = some e) : (t.get j).refs.lookup (s.shownName e x) = some e := by
  obtain ⟨o, ho, rfl, he, i, sym, hi, hr, hj, hd⟩ := (noted.refs j x e).1 h
  have hlt : i < s.all.length := by
    obtain ⟨i', hi', hlt, -⟩ := noted.placed o ho
    exact Option.some.inj (hi.symm.trans hi') ▸ hlt
  have hself : i ∈ s.chain i := by
    rw [hs.chain_eq hlt]
    exact mem_cons_self
  have hei : e ∈ s.chain i := by
    obtain ⟨a, b, hc, -⟩ := resolve_eq_some_iff.1 hr
    simp [hc]
  obtain ⟨a, b, sym', way⟩ := hs.ways i o.1 e ((noted.refs i o.1 e).2 ⟨o, ho, rfl, he, i, sym, hi, hr, hself, hei⟩)
  obtain ⟨sym'', hr'⟩ := resolve_renamed hs noted noted' nesting (way.resolveShown_eq hs)
  have hnew := newName_eq_shownName hs.homed (noted.used o ho he) hi hr
  rw [nesting.chain_eq] at hj hd
  refine (noted'.refs j _ e).2 ⟨(s.newName o.1 o.2, o.2), ?_, hnew, he, i, sym'', hi, ?_, hj, hd⟩
  · rw [names_rename]
    exact mem_map_of_mem (f := fun o : Occurrence => (s.newName o.1 o.2, o.2)) ho
  · rwa [hnew]

end

/-- A renamed program gets its names again. -/
theorem follows_renamed {bound : Node} {s plain t₀ : Scopes} {toplevel : Bool} (hs : s.Finished toplevel)
    (noted : Noted bound s) (ready : Prepared (bound.rename s.newName) plain t₀) (nesting : SameNesting s t₀) :
    Follows s t₀ toplevel := by
  have hkeys := keys_renamed hs noted ready.toNoted
  refine ⟨nesting, fun j => by rw [hkeys, shownNames, length_map], fun j hkeep => ?_, ?_⟩
  · rw [hkeys]
    rcases Nat.lt_or_ge j s.all.length with hj | hj
    · rcases hs.settled j hj with ⟨-, hu⟩ | ⟨hgive, -⟩
      · exact shownNames_of_unnamed hu
      · exact absurd hkeep hgive
    · rw [shownNames, get_of_length_le s hj]
      rfl
  · intro t j alike hrefs abreast q hg x hx
    have noted' := ready.toNoted.alike alike hrefs
    have hkeys' := keys_renamed hs noted noted'
    cases hfree : s.isFree j x with
    | false =>
      refine abreast.isFree_eq_false hs.toReferenced noted'.toReferenced (fun {x e} href => ?_) hfree
      refine ⟨s.shownName e x, refs_renamed hs noted noted' abreast.toSameNesting href, ?_⟩
      obtain ⟨a, b, sym, way⟩ := hs.ways j x e href
      rw [hkeys', shownNames, ← map_prod_left_eq_zip]
      exact mem_map_of_mem (f := fun x => (x, s.shownName e x)) (mem_map_of_mem (mem_of_lookup way.defined))
    | true =>
      refine Bool.eq_true_of_not_eq_false fun hhidden => ?_
      rcases isReserved_or_shown noted'.keys abreast.symm.left hhidden with hres | ⟨old, e, href, haround, rfl⟩
      · simp [isFree, hres] at hfree
      · -- The scope has this name itself, so it does not look for it further out.
        obtain ⟨a, b, sym, way⟩ := noted'.ways j old e href
        obtain ⟨a, rfl⟩ := way.starts noted'.toNested (Nat.ne_of_lt (noted'.lt_of_mem_around way.inside haround))
        have hold : old ∈ keys (t.get e).symbols := mem_map_of_mem (mem_of_lookup way.defined)
        have hshown := (abreast.symm.shown e haround).symm.trans (hkeys' e).symm
        rw [shownName_eq_self hshown hold] at hx hfree
        have hmem : old ∈ keys (t.get j).symbols := by
          rw [hkeys', hg.shownNames_eq (hs.keys j), freeNames, mem_filter]
          exact ⟨hx, hfree⟩
        rw [← lookup_isSome_iff, way.undefined j mem_cons_self] at hmem
        cases hmem

/-- Scopes that show their symbols as they are written replace no name. -/
theorem newName_eq_self {s : Scopes} {toplevel : Bool} (hs : s.Finished toplevel)
    (h : ∀ j, s.shownNames j = keys (s.get j).symbols) (x : String) (m : Mark) : s.newName x m = x := by
  obtain hsame | ⟨d, q, hg, hd⟩ := hs.newName_cases x m
  · exact hsame
  · have hkey : x ∈ keys (s.get d).symbols := by
      rw [← keys_zip hg.length, ← hg.mangled, ← lookup_isSome_iff, hd]
      rfl
    have hself := shownName_eq_self (h d) hkey
    rwa [shownName, hd, Option.getD_some] at hself

/-- Renaming a program that was renamed changes nothing. -/
theorem mangle_mangle {text : String} {tree out : Node} {p : Parser} {toplevel : Bool} (hparse : parse text = (.ok tree, p))
    (h : tree.mangle toplevel = .ok out) : out.mangle toplevel = .ok out := by
  have marked := parse_marked hparse
  obtain ⟨s, hmangle⟩ := mangle_eq_ok_iff.1 h
  obtain ⟨bound, plain, hbind, htree, rfl⟩ := mangleWithScopes_cases hmangle
  obtain ⟨alike, noted, hs⟩ := (prepared_of_bind marked hbind).finished htree
  obtain ⟨rfl, -⟩ := bind_blank marked hbind
  -- The renamed program has the same scopes, and its names are where those of the program are.
  have marked' : Marked (bound.rename s.newName).forgetScopes := by
    have hmarks := marked
    rw [forgetScopes_eq_relabel] at hmarks
    rw [renamed_eq_relabel]
    exact hmarks.relabel (fun k m => by exact Kind.blank_rename _ k) (by intros; rfl)
  obtain ⟨bound', plain', hbind', hbound, nesting⟩ := bind_of_blank_eq marked marked' (blank_renamed _ _) hbind
  obtain ⟨hforget, -⟩ := bind_blank marked' hbind'
  have hleaf := marked'.isLeafName
  rw [isLeafName_forgetScopes] at hleaf
  obtain rfl := eq_of_blank_of_forgetScopes hleaf (hbound.trans (blank_rename _ _).symm) hforget
  have ready := prepared_of_bind marked' hbind'
  have nesting' := (alike.toSameNesting.symm.trans nesting).trans ready.alike.toSameNesting
  obtain ⟨t, ht, hshown⟩ := (follows_renamed hs noted ready nesting').mangleTree hs ready
  obtain ⟨-, noted', hfinished⟩ := ready.finished ht
  have hself := newName_eq_self hfinished fun j => (hshown j).trans (keys_renamed hs noted noted' j).symm
  refine mangle_eq_ok_iff.2 ⟨t, ?_⟩
  rw [mangleWithScopes_of_mangleTree hbind' ht, rename_eq_self hself]

/-- The parameter `x` captures the `a` that no scope declares; renaming again keeps all names. -/
theorem mangle_mangle_captured :
    ∃ tree p out, parse "function f(x){return a+x;}" = (.ok tree, p) ∧ tree.mangle false = .ok out ∧
      out.names.map (·.1) = ["f", "a", "a", "a"] ∧ out.mangle false = .ok out := by
  obtain ⟨tree, p, bound, plain, out, scopes, hp, hb, hm, ht⟩ := exists_of_testRenamed "function f(x){return a+x;}" false
    (fun bound _ scopes => bound.names.map (fun o => scopes.newName o.1 o.2) = ["f", "a", "a", "a"]) (by decide +kernel)
  have hout : tree.mangle false = .ok out := mangle_eq_ok_iff.2 ⟨scopes, hm⟩
  refine ⟨tree, p, out, hp, hout, ?_, mangle_mangle hp hout⟩
  rw [(mangleWithScopes_spec (parse_marked hp) hb hm).names, List.map_map]
  exact of_decide_eq_true ht

end JsMinify
