import JsMinify.Minify
import JsMinify.Proofs.Parser.Shapes
import JsMinify.Proofs.Scope.Notes
import JsMinify.Proofs.Scope.Plenty

/-!
# Which programs are minified

A parsed program has its names shortened unless a node of it lacks its statements, as long as it has fewer names than
there are short ones (`mangle_ok_iff`). The new names are names again, so the renamed tree has the shape of a parsed one
and the defects of the program. `minify_fails_iff` puts this together with what is printed.
-/

namespace JsMinify

open List Binding Names Node Scopes Bool TokenKind Lexeme

/-! ## Short names are names -/

variable {x : String}

namespace Names

theorem chars_isNameStart : ∀ c ∈ chars, isNameStart c := all_eq_true.1 (by decide)

theorem reserved_lower : ∀ e ∈ reserved, e.1.map Char.toLower = e.1 := by decide +kernel

theorem ofWord_of_not_reserved (h : isReserved x = false) : ofWord x = .identifier := by
  rw [ofWord]
  cases hl : reserved.lookup x with
  | none => rfl
  | some k =>
    rw [isReserved, reserved_lower _ (mem_of_lookup hl), hl] at h
    cases h

/-- Letters alone are no word before a name. -/
theorem accessor?_eq_none {s : List Char} (h : ∀ c ∈ s, isNameStart c) (word : String) : accessor? word s = none := by
  refine Option.eq_none_iff_forall_ne_some.2 fun n hn => ?_
  obtain ⟨r, rfl, hopen, -⟩ := accessor?_eq_some_iff.1 hn
  unfold opensName at hopen
  split at hopen
  · next c d r =>
    have hblank := isNameChar_of_blank (and_eq_true _ _ ▸ hopen).1
    rw [isNameChar, h c (by simp)] at hblank
    cases hblank
  · cases hopen

variable {q : Nat}

theorem chars_of_mem_first (hx : x ∈ first q) : x.toList ≠ [] ∧ ∀ c ∈ x.toList, c ∈ chars := by
  obtain ⟨r, qs, -, hqs, rfl⟩ := mem_first.1 hx
  have hlt := positions_lt hqs
  refine ⟨?_, chars_of_wordAt hlt⟩
  rw [letters_eq, toList_wordAt (by simpa [letters_eq] using hlt), ne_eq, map_eq_nil_iff]
  rw [positions_eq_getElem?] at hqs
  exact (mem_picks.1 (mem_of_getElem? hqs)).1

theorem name?_of_mem_first (hx : x ∈ first q) : name? x.toList = some x.toList.length := by
  obtain ⟨hne, hchars⟩ := chars_of_mem_first hx
  have hstart : ∀ c ∈ x.toList, isNameStart c := fun c hc => chars_isNameStart c (hchars c hc)
  simp [name?, run, takeWhile_eq_self_iff.2 hstart, hne]

theorem rule?_of_mem_first (hx : x ∈ first q) (h : isReserved x = false) :
    rule? x.toList = some (.identifier, x.toList.length) := by
  have hstart : ∀ c ∈ x.toList, isNameStart c :=
    fun c hc => chars_isNameStart c ((chars_of_mem_first hx).2 c hc)
  have hrule := rule?_word (name?_of_mem_first hx) (accessor?_eq_none hstart _) (accessor?_eq_none hstart _)
  rwa [take_length, String.ofList_toList, ofWord_of_not_reserved h] at hrule

theorem isWhole_of_mem_first (hx : x ∈ first q) (h : isReserved x = false) : isWhole .identifier x.toList := by
  change (rule? x.toList == some (.identifier, x.toList.length)) = true
  rw [rule?_of_mem_first hx h, beq_self_eq_true]

end Names

/-! ## Programs with few names -/

theorem length_addNew_le (known new : List String) : (addNew known new).length ≤ known.length + new.length := by
  induction new generalizing known with
  | nil => exact Nat.le_refl _
  | cons x new ih =>
    have hstep := ih (if x ∈ known then known else known ++ [x])
    rw [length_cons]
    refine Nat.le_trans hstep ?_
    split
    · omega
    · rw [length_append, length_singleton]
      omega

/-- A name that is open to renaming is declared or stands as an expression. -/
theorem countP_declared_add_used (os : List Occurrence) :
    os.countP (fun o => o.2.candidate && !o.2.inExpr) + os.countP (fun o => o.2.candidate && o.2.inExpr) =
      os.countP (·.2.candidate) := by
  induction os with
  | nil => rfl
  | cons o os ih =>
    simp only [countP_cons, ← ih]
    cases o.2.candidate <;> cases o.2.inExpr <;> simp <;> omega

theorem length_declaredIn_le (j : Nat) (os : List Occurrence) :
    (declaredIn j os).length ≤ os.countP (fun o => o.2.candidate && !o.2.inExpr) := by
  rw [declaredIn, length_map, ← countP_eq_length_filter]
  refine countP_mono_left fun o _ ho => ?_
  rw [and_eq_true] at ho
  exact ho.1

variable {s : Scopes}

/-- A scope knows of no more references than there are names that stand as expressions. -/
theorem length_refs_le {tree : Node} (hb : Built s) (hp : ∀ o ∈ tree.names, Placed s o) (j : Nat) :
    ((s.referAll tree).get j).refs.length ≤ tree.names.countP (·.2.inExpr) := by
  obtain ⟨-, -, hrefs⟩ := referAll_spec hb hp
  have hnodup : (keys ((s.referAll tree).get j).refs).Nodup :=
    nodup_keys_referNames tree.names (fun i => by rw [hb.unnoted]; exact nodup_nil) j
  have hsub : keys ((s.referAll tree).get j).refs ⊆ (tree.names.filter (·.2.inExpr)).map (·.1) := by
    intro x hx
    obtain ⟨e, he⟩ := Option.isSome_iff_exists.1 (lookup_isSome_iff.2 hx)
    obtain ⟨o, ho, rfl, href⟩ := (hrefs j x e).1 he
    exact mem_map_of_mem (mem_filter.2 ⟨ho, href.1⟩)
  have hle := (hnodup.subperm hsub).length_le
  rwa [length_map, ← countP_eq_length_filter, keys, length_map] at hle

/-- Every scope of a program with few names gets new names. -/
theorem mangleTree_isSome_of_few {tree : Node} (toplevel : Bool) (hb : Built s)
    (hp : ∀ o ∈ tree.names, Placed s o) (hs : ∀ j, keys (s.get j).symbols = addNew [] (declaredIn j tree.names))
    (hused : ∀ o ∈ tree.names, o.2.inExpr → o.2.candidate)
    (few : tree.names.countP (·.2.candidate) < Nat.pow 2 53) : ((s.referAll tree).mangleTree 0 toplevel).isSome := by
  obtain ⟨alike, unnamed, -⟩ := referAll_spec hb hp
  refine mangleTree_isSome hb alike unnamed fun j hj t under _ => under.enough hb alike hj ?_
  have hkeys := length_addNew_le [] (declaredIn j tree.names)
  have hdeclared := length_declaredIn_le j tree.names
  have hrefs := length_refs_le hb hp j
  have hsum := countP_declared_add_used tree.names
  have hexpr : tree.names.countP (·.2.inExpr) = tree.names.countP fun o => o.2.candidate && o.2.inExpr :=
    countP_congr fun o ho => by simpa using hused o ho
  have hreserved := reservedCount_le
  have htotal : Nat.pow 2 53 + 8192 ≤ Names.count := by decide
  rw [← hs, length_nil, keys, length_map] at hkeys
  rw [← alike.symbols]
  omega

/-! ## Renamed trees -/

variable {toplevel : Bool}

namespace Scopes

/-- The new name of a name is a name. -/
theorem Finished.isWhole_newName (h : s.Finished toplevel) (m : Mark)
    (hx : isWhole .identifier x.toList) : isWhole .identifier (s.newName x m).toList := by
  obtain hsame | ⟨d, q, hg, hd⟩ := h.newName_cases x m
  · rwa [hsame]
  · obtain ⟨hfirst, hfree⟩ := hg.unmangled_isSome_iff.1 (by rw [(hg.mangled_iff (h.keys d)).1 hd]; rfl)
    refine isWhole_of_mem_first hfirst ?_
    rw [isFree, and_eq_true] at hfree
    simpa using hfree.2

end Scopes

/-- The names of a parsed program are shortened unless a node of it lacks its statements. -/
theorem mangle_ok_iff {tree : Node} (toplevel : Bool) (hm : Marked tree)
    (few : (tree.names.filter (·.2.candidate)).length < Nat.pow 2 53) :
    (∃ r, tree.mangleWithScopes toplevel = .ok r) ↔ tree.isBindable := by
  rw [← bind_ok_iff hm]
  constructor
  · rintro ⟨⟨out, scopes⟩, h⟩
    obtain ⟨bound, plain, hb, -, -⟩ := mangleWithScopes_cases h
    exact ⟨_, hb⟩
  · rintro ⟨⟨bound, plain⟩, hb⟩
    obtain ⟨built, placed, same, symbols⟩ := bind_spec hm hb
    have hcount : ∀ os : List Occurrence, (os.map Binding.bare).countP (·.2.candidate) = os.countP (·.2.candidate) :=
      fun os => countP_map
    have hfew : bound.names.countP (·.2.candidate) < Nat.pow 2 53 := by
      rwa [← hcount, same, hcount, countP_eq_length_filter]
    obtain ⟨scopes, hs⟩ := Option.isSome_iff_exists.1
      (mangleTree_isSome_of_few toplevel built placed symbols (prepared_of_bind hm hb).used hfew)
    exact ⟨_, mangleWithScopes_of_mangleTree hb hs⟩

/-- A renamed program has the shape and the defects of the program. -/
theorem mangled_formed {tree out : Node} {scopes : Scopes} (hm : Marked tree) {r : Role}
    (hf : Formed r tree) (h : tree.mangleWithScopes toplevel = .ok (out, scopes)) :
    Formed r out ∧ out.isFaultless = tree.isFaultless := by
  obtain ⟨bound, plain, hb, -, rfl⟩ := mangleWithScopes_cases h
  have renamed := mangleWithScopes_spec hm hb h
  obtain ⟨rfl, -⟩ := bind_blank hm hb
  rw [renamed_eq_relabel]
  rw [forgetScopes_eq_relabel] at hf ⊢
  refine ⟨hf.relabel (fun k m => by exact Kind.blank_rename _ k) fun k m hw => ?_, ?_⟩
  · cases k with
    | identifier x => exact renamed.finished.isWhole_newName m hw
    | _ => exact hw
  · rw [Renames.isFaultless_relabel fun k m => by exact Kind.blank_rename _ k, Renames.isFaultless_relabel fun _ _ => rfl]

theorem hasBodies_of_isFaultless {n : Node} (h : n.isFaultless) : n.hasBodies := by
  refine every_mono (fun n hn => ?_) h
  rw [not_eq_true'] at hn ⊢
  cases n with
  | node k m parts =>
    cases k with
    | getter => exact hn
    | setter => exact (or_eq_false_iff.1 hn).1
    | _ => rfl
  | _ => rfl

/-! ## Minifying -/

theorem minify_eq {options : Options} {text : String} {tree : Node} {p : Parser} (h : parse text = (.ok tree, p)) :
    (minify options text).result = (tree.minify options).mapError .tree := by
  rw [minify, withTree, h]
  simp only
  cases tree.minify options <;> rfl

/-- The compact form of a program, and the same with an error in the place of a placeholder. -/
theorem compact_shown {n : Node} (hf : Formed (.one .program) n) :
    Shown n.compact ((·.text) <$> n.fold Compact.strict) (n.isFaultless) := by
  have hshown := hf.shown.map (·.text)
  rwa [map_eq_pure_bind] at hshown

theorem minify_shown {options : Options} {tree : Node} (hm : Marked tree) (hf : Formed (.one .program) tree)
    (few : (tree.names.filter (·.2.candidate)).length < Nat.pow 2 53) :
    ((∃ out, tree.minify options = .ok out) ↔ tree.isFaultless) ∧
      ∀ out, tree.minify options = .ok out → ∃ printed,
        (if options.mangle then tree.mangle options.toplevel = .ok printed else printed = tree) ∧
          (·.text) <$> printed.fold Compact.strict = .ok out := by
  unfold Node.minify
  cases options.mangle with
  | false =>
    have hshown := compact_shown hf
    exact ⟨hshown.ok_iff, fun out hout => ⟨tree, rfl, (hshown.same (hshown.ok_iff.1 ⟨out, hout⟩)).trans hout⟩⟩
  | true =>
    simp only [if_true]
    cases hmangle : tree.mangleWithScopes options.toplevel with
    | error e =>
      have hbind : ¬tree.isBindable := by
        rw [← mangle_ok_iff options.toplevel hm few, hmangle]
        rintro ⟨r, hr⟩
        cases hr
      have hprinted : tree.mangle options.toplevel = .error e := by rw [mangle, hmangle]; rfl
      rw [hprinted]
      refine ⟨⟨by rintro ⟨_, ⟨⟩⟩, fun hfaultless => ?_⟩, by rintro _ ⟨⟩⟩
      exact absurd (isBindable_of_hasBodies hf (hasBodies_of_isFaultless hfaultless)) hbind
    | ok r =>
      obtain ⟨printed, scopes⟩ := r
      obtain ⟨hformed, hfaultless⟩ := mangled_formed hm hf hmangle
      have hshown := compact_shown hformed
      rw [hfaultless] at hshown
      have hprinted : tree.mangle options.toplevel = .ok printed := by rw [mangle, hmangle]; rfl
      rw [hprinted]
      exact ⟨hshown.ok_iff, fun out hout => ⟨printed, rfl, (hshown.same (hshown.ok_iff.1 ⟨out, hout⟩)).trans hout⟩⟩

/-- A parsed program is not minified exactly if it has an accessor without statements or a setter with more than one
parameter. If it is, the text is printed without a placeholder for any node. -/
theorem minify_fails_iff {options : Options} {text : String} {tree : Node} {p : Parser} (h : parse text = (.ok tree, p))
    (few : (tree.names.filter (·.2.candidate)).length < Nat.pow 2 53) :
    ((∃ e, (minify options text).result = .error e) ↔ ∃ path n, tree.at? path = some n ∧ n.isDefective = true) ∧
      ∀ out, (minify options text).result = .ok out → ∃ printed,
        (if options.mangle then tree.mangle options.toplevel = .ok printed else printed = tree) ∧
          (·.text) <$> printed.fold Compact.strict = .ok out := by
  obtain ⟨hok, hshown⟩ := @minify_shown options _ (parse_marked h) (parse_formed h) few
  have hiff : (∃ path n, tree.at? path = some n ∧ n.isDefective = true) ↔ ¬tree.isFaultless = true := by
    rw [isFaultless_iff]
    push Not
    simp
  rw [minify_eq h, hiff, ← hok]
  cases hmin : tree.minify options with
  | error e => exact ⟨by simp [Except.mapError], nofun⟩
  | ok text =>
    refine ⟨by simp [Except.mapError], fun out hout => hshown out ?_⟩
    rw [hmin, Except.ok.inj hout]

/-- A setter with two parameters is a defect. -/
theorem minify_fails_at_setter :
    ∃ tree p n, parse "f({set a(b,c){return b}});" = (.ok tree, p) ∧ tree.at? [0, 0, 1, 0] = some n ∧
      n.isDefective = true ∧ ∃ e, (minify ⟨true, true⟩ "f({set a(b,c){return b}});").result = .error e := by
  have hcode : ((parse "f({set a(b,c){return b}});").1.toOption.map fun tree =>
      ((tree.at? [0, 0, 1, 0]).map isDefective, (tree.names.filter (·.2.candidate)).length)) = some (some true, 2) := by
    decide +kernel
  rcases hparse : parse "f({set a(b,c){return b}});" with ⟨e | tree, p⟩
  · rw [hparse] at hcode
    cases hcode
  rw [hparse] at hcode
  obtain ⟨hdefect, hcount⟩ := Prod.mk.inj (Option.some.inj hcode)
  obtain ⟨n, hn, hdefect⟩ := Option.map_eq_some_iff.1 hdefect
  obtain ⟨hfails, -⟩ := @minify_fails_iff ⟨true, true⟩ _ _ _ hparse (by rw [hcount]; decide)
  exact ⟨tree, p, n, rfl, hn, hdefect, hfails.2 ⟨_, n, hn, hdefect⟩⟩

end JsMinify
