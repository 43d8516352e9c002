import JsMinify.Proofs.Scope.Repeated

/-!
# New names do not depend on the old ones

Two programs that differ by their names only have the same scopes. Where corresponding names stand for corresponding
symbols (`Twins`), the symbols of a scope are as many in both, and a scope refers to the same ones of them. Then the
names that are free for a scope are the same, so the programs become equal when they are renamed (`mangle_twins`).
-/

namespace JsMinify

open List Binding Names Node Scopes

variable {bound bound' : Node} {s t : Scopes} {toplevel : Bool}

/-- Two names in the same place of two programs: the same name, if it is not open to renaming or no scope declares it;
or names of symbols in the same place of the same scope, and the same name there if the scope keeps its names. -/
inductive Twins (toplevel : Bool) (s t : Scopes) : Occurrence → Occurrence → Prop where
  | fixed {x : String} {m : Mark} (closed : m.candidate = false) : Twins toplevel s t (x, m) (x, m)
  | undeclared {x : String} {m : Mark} {i : Nat} (scope : m.scope = some i) (left : s.resolve i x = none)
      (right : t.resolve i x = none) : Twins toplevel s t (x, m) (x, m)
  | declared {x y : String} {m : Mark} {i d : Nat} {sym sym' : Symbol} (candidate : m.candidate = true)
      (scope : m.scope = some i) (left : s.resolve i x = some (d, sym)) (right : t.resolve i y = some (d, sym'))
      (place : (keys (s.get d).symbols).idxOf x = (keys (t.get d).symbols).idxOf y)
      (kept : KeepsNames s toplevel d → x = y) : Twins toplevel s t (x, m) (y, m)

namespace Twins

variable {s' t' : Scopes} {o o' : Occurrence}

theorem symm (h : Twins toplevel s t o o') (nesting : SameNesting s t) : Twins toplevel t s o' o := by
  cases h with
  | fixed closed => exact .fixed closed
  | undeclared scope left right => exact .undeclared scope right left
  | declared candidate scope left right place kept =>
    refine .declared candidate scope right left place.symm fun hk => (kept ?_).symm
    rwa [KeepsNames, nesting.parent]

theorem alike (h : Twins toplevel s t o o') (hs : Alike s s') (ht : Alike t t') : Twins toplevel s' t' o o' := by
  cases h with
  | fixed closed => exact .fixed closed
  | undeclared scope left right => exact .undeclared scope (hs.resolve_eq _ _ ▸ left) (ht.resolve_eq _ _ ▸ right)
  | declared candidate scope left right place kept =>
    refine .declared candidate scope (hs.resolve_eq _ _ ▸ left) (ht.resolve_eq _ _ ▸ right) ?_ fun hk => kept ?_
    · rwa [← hs.symbols, ← ht.symbols]
    · rwa [KeepsNames, hs.parent]

end Twins

/-- Whether two names are twins. -/
def isTwin (toplevel : Bool) (s t : Scopes) (o o' : Occurrence) : Bool :=
  o.2 = o'.2 && if o.2.candidate then
    match o.2.scope.map fun i => (s.resolve i o.1, t.resolve i o'.1) with
    | some (none, none) => o.1 = o'.1
    | some (some (d, _), some (d', _)) =>
      d = d' && (keys (s.get d).symbols).idxOf o.1 = (keys (t.get d).symbols).idxOf o'.1 &&
        (((s.get d).parent.isSome || toplevel) || o.1 = o'.1)
    | _ => false
  else o.1 = o'.1

theorem twins_of_isTwin {o o' : Occurrence} (h : isTwin toplevel s t o o') : Twins toplevel s t o o' := by
  obtain ⟨x, m⟩ := o
  obtain ⟨y, m'⟩ := o'
  simp only [isTwin, Bool.and_eq_true, decide_eq_true_eq] at h
  obtain ⟨rfl, h⟩ := h
  cases hc : m.candidate with
  | false =>
    rw [hc, if_neg (by simp), decide_eq_true_eq] at h
    rw [h]
    exact .fixed hc
  | true =>
    rw [hc, if_pos rfl] at h
    cases hi : m.scope with
    | none =>
      rw [hi] at h
      cases h
    | some i =>
      rw [hi, Option.map_some] at h
      cases hr : s.resolve i x with
      | none =>
        cases hr' : t.resolve i y with
        | none =>
          simp only [hr, hr', decide_eq_true_eq] at h
          subst h
          exact .undeclared hi hr hr'
        | some r =>
          rw [hr, hr'] at h
          cases h
      | some r =>
        cases hr' : t.resolve i y with
        | none =>
          rw [hr, hr'] at h
          cases h
        | some r' =>
          simp only [hr, hr', Bool.and_eq_true, Bool.or_eq_true, decide_eq_true_eq] at h
          obtain ⟨d, sym⟩ := r
          obtain ⟨d', sym'⟩ := r'
          obtain ⟨⟨rfl, place⟩, kept⟩ := h
          refine .declared hc hi hr hr' place fun hk => ?_
          simpa [hk.1, hk.2] using kept

theorem exists_of_forall₂ {α β : Type} {R : α → β → Prop} {xs : List α} {ys : List β} (h : Forall₂ R xs ys) {x : α}
    (hx : x ∈ xs) : ∃ y ∈ ys, R x y := by
  induction h with
  | nil => cases hx
  | cons hxy _ ih =>
    rcases mem_cons.1 hx with rfl | hx
    · exact ⟨_, mem_cons_self, hxy⟩
    · obtain ⟨y, hy, hr⟩ := ih hx
      exact ⟨y, mem_cons_of_mem _ hy, hr⟩

variable {x : String}

theorem mem_zip_of_idxOf {xs ys : List String} {y : String} (hx : x ∈ xs) (hy : y ∈ ys) (h : xs.idxOf x = ys.idxOf y) :
    (x, y) ∈ xs.zip ys := by
  have hx' := getElem_idxOf (idxOf_lt_length_of_mem hx)
  have hy' := getElem_idxOf (idxOf_lt_length_of_mem hy)
  have hlt : xs.idxOf x < (xs.zip ys).length := by
    rw [length_zip, Nat.lt_min, h]
    exact ⟨h ▸ idxOf_lt_length_of_mem hx, idxOf_lt_length_of_mem hy⟩
  have hzip := getElem_mem hlt
  rw [getElem_zip, hx'] at hzip
  simp only [h, hy'] at hzip
  exact hzip

variable {i d : Nat} {sym : Symbol}

theorem mem_keys_of_resolve (h : s.resolve i x = some (d, sym)) : x ∈ keys (s.get d).symbols := by
  obtain ⟨-, -, -, -, hd⟩ := resolve_eq_some_iff.1 h
  rw [← lookup_isSome_iff, hd]
  rfl

variable {j : Nat}

section

variable (noted : Noted bound s) (noted' : Noted bound' t)
  (nesting : SameNesting s t) (twins : List.Forall₂ (Twins toplevel s t) bound.names bound'.names)

include twins

theorem twin_of_resolve {o : Occurrence} (ho : o ∈ bound.names) (hc : o.2.candidate)
    (hi : o.2.scope = some i) (hr : s.resolve i o.1 = some (d, sym)) :
    ∃ y sym', (y, o.2) ∈ bound'.names ∧ t.resolve i y = some (d, sym') ∧
      (keys (s.get d).symbols).idxOf o.1 = (keys (t.get d).symbols).idxOf y ∧ (KeepsNames s toplevel d → o.1 = y) := by
  obtain ⟨o', ho', twin⟩ := exists_of_forall₂ twins ho
  cases twin with
  | fixed closed => cases closed.symm.trans hc
  | undeclared scope left =>
    cases hi.symm.trans scope
    cases left.symm.trans hr
  | declared candidate scope left right place kept =>
    cases hi.symm.trans scope
    obtain ⟨rfl, -⟩ := Prod.mk.inj (Option.some.inj (left.symm.trans hr))
    exact ⟨_, _, ho', right, place, kept⟩

include noted

/-- A symbol has a counterpart in the same place. -/
theorem symbol_of_twins (hx : x ∈ keys (s.get j).symbols) :
    ∃ y ∈ keys (t.get j).symbols, (keys (s.get j).symbols).idxOf x = (keys (t.get j).symbols).idxOf y ∧
      (KeepsNames s toplevel j → x = y) := by
  have hdeclared := hx
  rw [noted.symbols, mem_addNew] at hdeclared
  obtain ⟨o, ho, rfl⟩ := mem_map.1 (hdeclared.resolve_left nofun)
  simp only [mem_filter, Bool.and_eq_true, Bool.not_eq_true', decide_eq_true_eq] at ho
  obtain ⟨ho, ⟨hc, he⟩, hi⟩ := ho
  obtain ⟨sym, hr⟩ := noted.resolve_declared ho hc he hi
  obtain ⟨y, sym', -, hr', place, kept⟩ := twin_of_resolve twins ho hc hi hr
  exact ⟨y, mem_keys_of_resolve hr', place, kept⟩

theorem length_keys_le_of_twins (j : Nat) : (keys (s.get j).symbols).length ≤ (keys (t.get j).symbols).length := by
  cases hn : (keys (s.get j).symbols).length with
  | zero => exact Nat.zero_le _
  | succ n =>
    have hlt : n < (keys (s.get j).symbols).length := by omega
    obtain ⟨y, hy, place, -⟩ := symbol_of_twins noted twins (getElem_mem hlt)
    rw [(noted.keys j).idxOf_getElem n hlt] at place
    rw [place]
    exact idxOf_lt_length_of_mem hy

include noted' nesting

/-- A reference leads to the counterpart of the symbol. -/
theorem refs_of_twins {e : Nat} (h : (s.get j).refs.lookup x = some e) :
    ∃ y, (t.get j).refs.lookup y = some e ∧ (x, y) ∈ (keys (s.get e).symbols).zip (keys (t.get e).symbols) := by
  obtain ⟨o, ho, rfl, he, i, sym, hi, hr, hj, hd⟩ := (noted.refs j x e).1 h
  obtain ⟨y, sym', ho', hr', place, -⟩ := twin_of_resolve twins ho (noted.used o ho he) hi hr
  rw [nesting.chain_eq] at hj hd
  refine ⟨y, (noted'.refs j y e).2 ⟨(y, o.2), ho', rfl, he, i, sym', hi, hr', hj, hd⟩, ?_⟩
  exact mem_zip_of_idxOf (mem_keys_of_resolve hr) (mem_keys_of_resolve hr') place

end

/-- Symbols that keep their names are the same. -/
theorem keys_eq_of_twins (noted : Noted bound s) (twins : Forall₂ (Twins toplevel s t) bound.names bound'.names)
    (length : (keys (t.get j).symbols).length = (keys (s.get j).symbols).length) (hkeep : KeepsNames s toplevel j) :
    keys (t.get j).symbols = keys (s.get j).symbols := by
  refine ext_getElem length fun k hk hk' => ?_
  obtain ⟨y, hy, place, kept⟩ := symbol_of_twins noted twins (getElem_mem hk')
  rw [(noted.keys j).idxOf_getElem k hk'] at place
  have hget := getElem_idxOf (idxOf_lt_length_of_mem hy)
  simp only [← place] at hget
  rw [hget, kept hkeep]

variable {plain : Scopes}

theorem follows_of_twins {t₀ : Scopes} (hs : s.Finished toplevel)
    (noted : Noted bound s) (ready : Prepared bound' plain t₀) (nesting : SameNesting s t₀)
    (twins : Forall₂ (Twins toplevel s t₀) bound.names bound'.names) : Follows s t₀ toplevel := by
  have back : Forall₂ (Twins toplevel t₀ s) bound'.names bound.names :=
    (twins.imp fun o o' h => h.symm nesting).flip
  have length : ∀ j, (keys (t₀.get j).symbols).length = (keys (s.get j).symbols).length := fun j =>
    Nat.le_antisymm (length_keys_le_of_twins ready.toNoted back j) (length_keys_le_of_twins noted twins j)
  refine ⟨nesting, length, fun j hkeep => keys_eq_of_twins noted twins (length j) hkeep, ?_⟩
  intro t j alike hrefs abreast q hg x hx
  have noted' := ready.toNoted.alike alike hrefs
  have twins' := twins.imp fun o o' h => h.alike (Alike.refl s) alike
  have back' := back.imp fun o o' h => h.alike alike (Alike.refl s)
  have hiff : t.isFree j x = false ↔ s.isFree j x = false := by
    constructor
    · exact abreast.symm.isFree_eq_false noted'.toReferenced hs.toReferenced
        (refs_of_twins noted' noted abreast.toSameNesting.symm back')
    · exact abreast.isFree_eq_false hs.toReferenced noted'.toReferenced
        (refs_of_twins noted noted' abreast.toSameNesting twins')
  rw [Bool.eq_iff_iff, ← not_iff_not, Bool.not_eq_true, Bool.not_eq_true, hiff]

/-- Twins are replaced by the same name where the names shown are the same. -/
theorem Twins.newName_eq {o o' : Occurrence} (h : Twins toplevel s t o o') (hs : s.Homed)
    (ht : t.Homed) (shown : ∀ j, t.shownNames j = s.shownNames j) : (s.newName o.1 o.2, o.2) = (t.newName o'.1 o'.2, o'.2) := by
  cases h with
  | @fixed x m closed =>
    have hsame : ∀ s : Scopes, s.newName x m = x := fun s => by
      unfold newName
      cases m.scope <;> simp [closed]
    rw [hsame, hsame]
  | undeclared scope left right => rw [newName_of_unresolved scope left, newName_of_unresolved scope right]
  | @declared x y m i d sym sym' candidate scope left right place kept =>
    have hzip := mem_zip_of_idxOf (mem_keys_of_resolve left) (mem_keys_of_resolve right) place
    rw [newName_eq_shownName hs candidate scope left, newName_eq_shownName ht candidate scope right,
      shownName_eq_of_zip (shown d) hzip]

/-- A program whose names have twins in a renamed one becomes equal to it. -/
theorem mangle_of_twins {tree tree' out : Node} {plain' : Scopes} (marked : Marked tree)
    (marked' : Marked tree') (hblank : tree'.blank = tree.blank) (hbind : tree.bind = .ok (bound, plain))
    (hbind' : tree'.bind = .ok (bound', plain')) (twins : Forall₂ (Twins toplevel plain plain') bound.names bound'.names)
    (h : tree.mangle toplevel = .ok out) : tree'.mangle toplevel = .ok out := by
  obtain ⟨s, hmangle⟩ := mangle_eq_ok_iff.1 h
  obtain ⟨b, p, hb, htree, rfl⟩ := mangleWithScopes_cases hmangle
  cases Except.ok.inj (hbind.symm.trans hb)
  obtain ⟨alike, noted, hs⟩ := (prepared_of_bind marked hbind).finished htree
  obtain ⟨b', p', hb', hbound, nesting⟩ := bind_of_blank_eq marked marked' hblank hbind
  cases Except.ok.inj (hbind'.symm.trans hb')
  have ready := prepared_of_bind marked' hbind'
  have nesting' := (alike.toSameNesting.symm.trans nesting).trans ready.alike.toSameNesting
  have follows := follows_of_twins hs noted ready nesting' (twins.imp fun o o' h => h.alike alike ready.alike)
  obtain ⟨t, ht, hshown⟩ := follows.mangleTree hs ready
  obtain ⟨alike', noted', hfinished⟩ := ready.finished ht
  have hnames : (bound'.rename t.newName).names = (bound.rename s.newName).names := by
    rw [names_rename, names_rename]
    exact (forall₂_eq_iff.1 (twins.imp fun o o' h => (h.alike alike alike').newName_eq hs.homed noted'.homed hshown)).symm
  have hleaf : (bound.rename s.newName).every isLeafName := by
    rw [isLeafName_rename, ← isLeafName_forgetScopes, (bind_blank marked hbind).1]
    exact marked.isLeafName
  have hequal := eq_of_blank_of_names hleaf (by rw [blank_rename, blank_rename, hbound]) hnames
  refine mangle_eq_ok_iff.2 ⟨t, ?_⟩
  rw [mangleWithScopes_of_mangleTree hbind' ht, hequal]

/-- Renaming a program whose scopes are found fails only for want of names. -/
theorem mangle_error {n : Node} {e : TreeError} (hb : n.bind = .ok (bound, plain))
    (h : n.mangle toplevel = .error e) : e = .noNameLeft := by
  cases hm : (plain.referAll bound).mangleTree 0 toplevel with
  | some scopes =>
    rw [mangle_eq_ok_iff.2 ⟨scopes, mangleWithScopes_of_mangleTree hb hm⟩] at h
    cases h
  | none =>
    rw [mangle, mangleWithScopes, hb] at h
    simp only [Bind.bind, Except.bind, hm] at h
    exact (Except.error.inj h).symm

/-- New names do not depend on the old ones: two parsed programs that differ by their names only, and whose names are
twins, become equal when they are renamed. -/
theorem mangle_twins {text text' : String} {tree tree' bound bound' : Node} {p p' : Parser} {plain plain' : Scopes}
    {toplevel : Bool} (hparse : parse text = (.ok tree, p)) (hparse' : parse text' = (.ok tree', p'))
    (hblank : tree'.blank = tree.blank) (hbind : tree.bind = .ok (bound, plain)) (hbind' : tree'.bind = .ok (bound', plain'))
    (twins : List.Forall₂ (Twins toplevel plain plain') bound.names bound'.names) :
    tree'.mangle toplevel = tree.mangle toplevel := by
  have marked := parse_marked hparse
  have marked' := parse_marked hparse'
  obtain ⟨b, p, hb, hbound, nesting⟩ := bind_of_blank_eq marked marked' hblank hbind
  cases Except.ok.inj (hbind'.symm.trans hb)
  have back := (twins.imp fun o o' h => h.symm nesting).flip
  cases hout : tree.mangle toplevel with
  | ok out => exact mangle_of_twins marked marked' hblank hbind hbind' twins hout
  | error e =>
    cases hout' : tree'.mangle toplevel with
    | ok out => exact absurd (mangle_of_twins marked' marked hblank.symm hbind' hbind back hout') (by rw [hout]; exact nofun)
    | error e' => rw [mangle_error hbind hout, mangle_error hbind' hout']

/-- A test of two texts that differ by their names. -/
def testTwins (text text' : String) (toplevel : Bool) : Bool :=
  match (parse text).1, (parse text').1 with
  | .ok tree, .ok tree' =>
    match tree.bind, tree'.bind with
    | .ok (bound, plain), .ok (bound', plain') =>
      tree'.blank = tree.blank && List.Forall₂ (fun o o' => isTwin toplevel plain plain' o o') bound.names bound'.names
    | _, _ => false
  | _, _ => false

/-- The parameters of the second program have each other's new names, which do not stay. -/
theorem mangle_twins_parameters :
    ∃ tree p tree' p' bound plain bound' plain', parse "function f(x,y){return x+y+z;}" = (.ok tree, p) ∧
      parse "function f(b,a){return b+a+z;}" = (.ok tree', p') ∧ tree'.blank = tree.blank ∧
      tree.bind = .ok (bound, plain) ∧ tree'.bind = .ok (bound', plain') ∧
      List.Forall₂ (Twins false plain plain') bound.names bound'.names ∧
      tree'.mangle false = tree.mangle false := by
  have htest : testTwins "function f(x,y){return x+y+z;}" "function f(b,a){return b+a+z;}" false = true := by decide +kernel
  unfold testTwins at htest
  split at htest
  · next tree tree' hp hp' =>
    split at htest
    · next bound plain bound' plain' hb hb' =>
      rw [Bool.and_eq_true, decide_eq_true_eq, decide_eq_true_eq] at htest
      obtain ⟨hblank, htwins⟩ := htest
      have twins := htwins.imp fun o o' => twins_of_isTwin
      exact ⟨tree, _, tree', _, bound, plain, bound', plain', Prod.ext hp rfl, Prod.ext hp' rfl, hblank, hb, hb', twins,
        mangle_twins (Prod.ext hp rfl) (Prod.ext hp' rfl) hblank hb hb' twins⟩
    · cases htest
  · cases htest

end JsMinify
