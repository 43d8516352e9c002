import JsMinify.Proofs.Lexer.Single
import JsMinify.Proofs.Minify

/-!
# The new names of a program

Each scope of a program that gives new names has one for each of its symbols, and its two tables lead from symbols to new
names and back. The new names are names for the lexer too (`new_names_tabled`). A scope draws few short names for them:
it passes over those that are reserved and over one for each of its references at most (`draws_bounded`).
-/

namespace JsMinify

open List Names Scopes

variable {text : String} {tree bound : Node} {p : Parser} {plain scopes : Scopes} {toplevel : Bool} {j q : Nat}

namespace Names

/-- A name that can be given away: one or more letters that are no reserved word. For the lexer it is a name too, and alone
it is a single token. -/
structure IsNew (x : String) : Prop where
  nonempty : x ≠ ""
  lettered : ∀ c ∈ x.toList, String.singleton c ∈ letters
  unreserved : TokenKind.reserved.lookup x = none
  identifier : isIdentifier x = true
  token : ∃ t l, tokenize x = ([t], .ok (), l) ∧ t.kind = .identifier ∧ t.text = x

theorem isNew_of_mem_first {x : String} (hx : x ∈ first q) (h : isReserved x = false) : IsNew x := by
  obtain ⟨hne, hchars⟩ := chars_of_mem_first hx
  have hunreserved : TokenKind.reserved.lookup x = none := by
    cases hl : TokenKind.reserved.lookup x with
    | none => rfl
    | some k =>
      rw [isReserved, reserved_lower _ (mem_of_lookup hl), hl] at h
      cases h
  refine ⟨fun he => hne (by rw [he]; rfl), fun c hc => letters_eq ▸ mem_map_of_mem (hchars c hc), hunreserved, ?_, ?_⟩
  · simp [isIdentifier, name?_of_mem_first hx, hunreserved]
  · have hslash : Lexeme.opensSlash x.toList = false := Lexeme.opensSlash_eq_false fun hhead => by
      have hstart := chars_isNameStart '/' (hchars _ (mem_of_head? hhead))
      cases hstart
    obtain ⟨t, hkind, htext, -, halone⟩ := tokenize_head (by rw [Lexeme.next?, hslash]; exact rule?_of_mem_first hx h) rfl
    obtain ⟨l, hl⟩ := halone rfl
    refine ⟨t, l, hl, hkind, String.toList_inj.1 ?_⟩
    rw [htext, take_length, Lexer.joined, if_neg (by decide)]

end Names

/-- The symbols of a scope have new names if the scope is not the outermost one or the top level is renamed too: the first
table leads from all symbols to their names, the second one from the names back to the symbols, and all the names are
new ones. Else there are no new names. -/
theorem new_names_tabled (hparse : parse text = (.ok tree, p)) (hbind : tree.bind = .ok (bound, plain))
    (hmangle : (plain.referAll bound).mangleTree 0 toplevel = some scopes) (hj : j < scopes.all.length) :
    if (scopes.get j).parent = none ∧ toplevel = false then (scopes.get j).mangled = [] ∧ (scopes.get j).unmangled = []
    else keys (scopes.get j).mangled = keys (scopes.get j).symbols ∧ (keys (scopes.get j).symbols).Nodup ∧
      (scopes.get j).unmangled = (scopes.get j).mangled.map Prod.swap ∧ (keys (scopes.get j).unmangled).Nodup ∧
      ∀ e ∈ (scopes.get j).mangled, IsNew e.2 := by
  obtain ⟨-, -, finished⟩ := (prepared_of_bind (parse_marked hparse) hbind).finished hmangle
  rcases finished.settled j hj with ⟨hkeeps, hu⟩ | ⟨hgives, q, hg⟩
  · rw [if_pos (by exact hkeeps)]
    exact ⟨hu.fields.1, hu.fields.2.1⟩
  · rw [if_neg (by exact hgives), hg.mangled, hg.unmangled, keys_zip hg.length, keys_zip hg.length.symm, zip_swap]
    refine ⟨rfl, finished.keys j, rfl, (nodup_first q).filter _, fun e he => ?_⟩
    obtain ⟨hfirst, hfree⟩ := mem_filter.1 (of_mem_zip he).2
    simp only [isFree, Bool.and_eq_true, Bool.not_eq_true'] at hfree
    exact isNew_of_mem_first hfirst hfree.2

/-- The outermost scope keeps its names, and the parameter is not renamed to `a`, which refers to it. -/
theorem new_names_beside_kept : ∃ tree p bound plain scopes, parse "var a=1;function f(x){return a+x;}" = (.ok tree, p) ∧
      tree.bind = .ok (bound, plain) ∧ (plain.referAll bound).mangleTree 0 false = some scopes ∧
      (scopes.get 0).mangled = [] ∧ (scopes.get 0).unmangled = [] ∧ (scopes.get 1).mangled = [("x", "b")] ∧
      (scopes.get 1).unmangled = [("b", "x")] ∧ IsNew "b" := by
  obtain ⟨tree, p, bound, plain, out, scopes, hp, hb, hm, ht⟩ := exists_of_testRenamed
    "var a=1;function f(x){return a+x;}" false (fun _ _ scopes => scopes.all.length = 2 && (scopes.get 0).parent = none &&
      (scopes.get 1).parent = some 0 && (scopes.get 1).mangled = [("x", "b")]) (by decide +kernel)
  simp only [Bool.and_eq_true, decide_eq_true_eq] at ht
  obtain ⟨⟨⟨hlen, hroot⟩, hinner⟩, hmangled⟩ := ht
  obtain ⟨_, _, hb', hmangle, -⟩ := mangleWithScopes_cases hm
  cases Except.ok.inj (hb.symm.trans hb')
  have houter := new_names_tabled (j := 0) hp hb hmangle (by omega)
  have hlocal := new_names_tabled (j := 1) hp hb hmangle (by omega)
  rw [if_pos ⟨hroot, rfl⟩] at houter
  rw [if_neg (by simp [hinner]), hmangled] at hlocal
  obtain ⟨-, -, hback, -, hnew⟩ := hlocal
  exact ⟨tree, p, bound, plain, scopes, hp, hb, hmangle, houter.1, houter.2, hmangled, hback, hnew _ mem_cons_self⟩

/-! ## How many short names are drawn -/

/-- What a scope draws at most: a name for each symbol, two for each reference and the reserved ones. -/
def Scopes.drawBound (s : Scopes) (j : Nat) : Nat :=
  (s.get j).symbols.length + 2 * (s.get j).refs.length + reservedCount

/-- A scope that has its new names has drawn few short ones. -/
theorem Scopes.Underway.draws {s t : Scopes} {k : Nat} (hb : Built plain) (ha : Alike plain s) (under : Underway s t toplevel k)
    (hk : k ≤ s.all.length) (hj : j < k) : ∃ q, positions q = some (t.get j).drawn ∧ q ≤ s.drawBound j := by
  rcases under.settled j hj with ⟨-, hu⟩ | ⟨-, q, hg⟩
  · exact ⟨0, by rw [hu.fields.2.2]; rfl, Nat.zero_le _⟩
  · refine ⟨q, hg.drawn, ?_⟩
    have hlt : ∀ i ∈ t.around j, i < k := fun i hi =>
      Nat.lt_trans (((ha.trans under.toAlike).nested hb.toNested).lt_of_mem_around
        (under.length ▸ Nat.lt_of_lt_of_le hj hk) hi) hj
    have hle := le_length_freeNames (s := t) (j := j) (fun i => by rw [← under.symbols, ← ha.symbols]; exact hb.keys i)
      (fun i hi => under.settled i (hlt i hi)) (by rw [hg.drawn]; rfl)
    rw [freeNames, ← hg.length, keys, length_map, ← under.symbols, under.refs] at hle
    rw [drawBound]
    omega

/-- Scopes get their new names one after the other. Each has drawn no more short names than its bound when it has them, and
it finds enough of them if the bound is below their number. So a program whose scopes all have such a bound is renamed. -/
theorem draws_bounded (toplevel : Bool) (hparse : parse text = (.ok tree, p)) (hbind : tree.bind = .ok (bound, plain)) :
    (∀ k ≤ plain.all.length, ∀ t, (range k).foldlM (mangleScope toplevel) (plain.referAll bound) = some t →
      (∀ j < k, ∃ q, positions q = some (t.get j).drawn ∧ q ≤ (plain.referAll bound).drawBound j) ∧
      (k < plain.all.length → (plain.referAll bound).drawBound k < Names.count → ∃ t', mangleScope toplevel t k = some t')) ∧
    (plain.referAll bound).mangleTree 0 toplevel =
      (range plain.all.length).foldlM (mangleScope toplevel) (plain.referAll bound) ∧
    ((∀ j < plain.all.length, (plain.referAll bound).drawBound j < Names.count) →
      ∃ scopes, (plain.referAll bound).mangleTree 0 toplevel = some scopes) := by
  have ready := prepared_of_bind (parse_marked hparse) hbind
  rw [ready.alike.length]
  have few (j : Nat) (hj : (plain.referAll bound).drawBound j < Names.count) :
      ((plain.referAll bound).get j).symbols.length + ((plain.referAll bound).get j).refs.length + reservedCount ≤
        Names.count := by
    rw [drawBound] at hj
    omega
  refine ⟨fun k hk t ht => ?_, mangleTree_eq toplevel ready.built ready.alike, fun hall => ?_⟩
  · have under := underway_of_mangled ready.built ready.alike ready.unnamed hk ht
    refine ⟨fun j hj => under.draws ready.built ready.alike hk hj, fun hlt hbound => Option.isSome_iff_exists.1 ?_⟩
    exact under.mangleScope_isSome ready.built ready.alike ready.unnamed hlt fun _ =>
      under.enough ready.built ready.alike hlt (few k hbound)
  · exact Option.isSome_iff_exists.1 (mangleTree_isSome ready.built ready.alike ready.unnamed fun j hj t under _ =>
      under.enough ready.built ready.alike hj (few j (hall j hj)))

/-- The function has drawn `a` and `b` for its parameter; it refers to `a` and `x`. -/
theorem draws_bounded_beside_kept :
    ∃ tree p bound plain scopes q, parse "var a=1;function f(x){return a+x;}" = (.ok tree, p) ∧
      tree.bind = .ok (bound, plain) ∧ (plain.referAll bound).mangleTree 0 false = some scopes ∧
      (scopes.get 1).drawn = [1] ∧ positions q = some [1] ∧ q ≤ (plain.referAll bound).drawBound 1 := by
  obtain ⟨tree, p, bound, plain, out, scopes, hp, hb, hm, ht⟩ := exists_of_testRenamed
    "var a=1;function f(x){return a+x;}" false (fun _ plain scopes => plain.all.length = 2 && (scopes.get 1).drawn = [1])
    (by decide +kernel)
  simp only [Bool.and_eq_true, decide_eq_true_eq] at ht
  obtain ⟨hlen, hdrawn⟩ := ht
  obtain ⟨_, _, hb', hmangle, -⟩ := mangleWithScopes_cases hm
  cases Except.ok.inj (hb.symm.trans hb')
  obtain ⟨hrun, heq, -⟩ := draws_bounded false hp hb
  obtain ⟨q, hq, hle⟩ := (hrun _ (Nat.le_refl _) scopes (heq ▸ hmangle)).1 1 (by omega)
  exact ⟨tree, p, bound, plain, scopes, q, hp, hb, hmangle, hdrawn, hdrawn ▸ hq, hle⟩

end JsMinify
