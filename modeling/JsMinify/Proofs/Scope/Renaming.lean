import JsMinify.Proofs.Minify
import JsMinify.Proofs.Parser.Uses
import JsMinify.Proofs.Scope.Outline

/-!
# Renamed trees by places

`mangled_at` says what renaming does at a place of a parsed tree: a name that is open to renaming takes the name by which
its symbol is shown from the scope around it, and nothing else changes. `mangle_only_renames` puts this together for a
whole program.
-/

namespace JsMinify

open Binding Node Scopes Option

variable {s : Scopes} {x : String} {m : Mark} {toplevel : Bool}

namespace Scopes

/-- The name by which what a name stands for in a scope is shown; the name itself if it stands for nothing. -/
def shownFrom (s : Scopes) (i : Nat) (x : String) : String := (s.resolve i x).elim x fun r => s.shownName r.1 x

variable {i : Nat}

theorem shownFrom_of_resolve {d : Nat} {sym : Symbol} (h : s.resolve i x = some (d, sym)) :
    s.shownFrom i x = s.shownName d x := by
  rw [shownFrom, h]
  rfl

theorem Homed.newName_eq (h : s.Homed) (hi : m.scope = some i) :
    s.newName x m = if m.candidate then s.shownFrom i x else x := by
  cases hc : m.candidate with
  | false => simp [newName, hi, hc]
  | true =>
    rw [if_pos rfl]
    cases hr : s.resolve i x with
    | none =>
      rw [newName_of_unresolved hi hr, shownFrom, hr]
      rfl
    | some r => rw [newName_eq_shownName h hc hi hr, shownFrom_of_resolve hr]

/-- A symbol that is shown by another name belongs to a scope that gave new names. -/
theorem Finished.of_shownFrom_ne (h : s.Finished toplevel) (hi : i < s.all.length) (hne : s.shownFrom i x ≠ x) :
    ∃ d sym, s.resolve i x = some (d, sym) ∧ ((s.get d).parent.isSome ∨ toplevel) := by
  cases hr : s.resolve i x with
  | none =>
    rw [shownFrom, hr] at hne
    exact absurd rfl hne
  | some r =>
    obtain ⟨d, sym⟩ := r
    rw [shownFrom_of_resolve hr] at hne
    obtain ⟨a, b, hc, -, -⟩ := resolve_eq_some_iff.1 hr
    have hd : d < s.all.length := h.lt_of_mem_chain hi (by simp [hc])
    refine ⟨d, sym, rfl, ?_⟩
    rcases h.settled d hd with ⟨-, hu⟩ | ⟨hk, -⟩
    · exact absurd (shownName_of_unnamed hu x) hne
    · rw [KeepsNames, not_and_or, Bool.not_eq_false] at hk
      exact hk.imp_left isSome_iff_ne_none.2

end Scopes

theorem Outline.scopeOf_lt {tree bound : Node} (h : Outline tree bound s) (path : Path) :
    tree.scopeOf path < s.all.length := by
  rw [h.count]
  exact Nat.lt_succ_of_le (scopeOf_le tree path)

/-- What renaming does at the place of a name. -/
theorem mangled_at {tree out : Node} {scopes : Scopes} (hm : Marked tree)
    (h : tree.mangleWithScopes toplevel = .ok (out, scopes)) {path : Path} {ps : List Node}
    (hx : tree.at? path = some (.node (.identifier x) m ps)) :
    ∃ ps', out.at? path =
      some (.node (.identifier (if m.candidate then scopes.shownFrom (tree.scopeOf path) x else x)) m ps') := by
  obtain ⟨bound, plain, hb, -, rfl⟩ := mangleWithScopes_cases h
  have renamed := mangleWithScopes_spec hm hb h
  have hnoted := (outline_of_bind hm hb).name path x m ps hx
  -- No scope is noted in the tree, so the mark is as it was once the note is dropped.
  have hmark : { m with scope := none } = m := by
    rw [← (bind_blank hm hb).1, forgetScopes_eq_relabel, at?_relabel, hnoted, map_some, relabel_node,
      some.injEq, Node.node.injEq] at hx
    exact hx.2.1
  have hname := renamed.finished.homed.newName_eq (x := x) (m := { m with scope := some (tree.scopeOf path) }) rfl
  rw [renamed_eq_relabel, at?_relabel, hnoted, map_some, relabel_node]
  dsimp only [Kind.rename]
  rw [hname, hmark]
  exact ⟨_, rfl⟩

/-- If no accessor lacks its statements and not too many names are open to renaming, renaming succeeds. Where it does, it changes
names only. What is left of the tree without its names is the same. A name changes only if it is open to renaming and stands
for a symbol of a scope that gives new names; its new name depends on that symbol alone. Names that mention a property, a
member or a label never change. -/
theorem mangle_only_renames {text : String} {tree : Node} {p : Parser} (h : parse text = (.ok tree, p)) (toplevel : Bool) :
    (tree.hasBodies = true → (tree.names.filter (·.2.candidate)).length < Nat.pow 2 53 →
      ∃ out, tree.mangle toplevel = .ok out) ∧
    ∀ out, tree.mangle toplevel = .ok out → ∃ bound s scopes, tree.bind = .ok (bound, s) ∧
      tree.mangleWithScopes toplevel = .ok (out, scopes) ∧ out.blank = tree.blank ∧
      ∀ path x m ps, tree.at? path = some (.node (.identifier x) m ps) →
        ∃ y ps', out.at? path = some (.node (.identifier y) m ps') ∧
          (y ≠ x → m.candidate = true ∧ ∃ d sym, s.resolve (tree.scopeOf path) x = some (d, sym) ∧
            ((s.get d).parent.isSome = true ∨ toplevel = true)) ∧
          (∀ d sym, m.candidate = true → s.resolve (tree.scopeOf path) x = some (d, sym) → y = scopes.shownName d x) ∧
          ∀ k i, tree.spot path = some (k, i) → k.mentionsAt i = true → y = x := by
  have hm := parse_marked h
  refine ⟨fun hb few => ?_, fun out hrun => ?_⟩
  · obtain ⟨⟨out, scopes⟩, hmangle⟩ := (mangle_ok_iff toplevel hm few).2 (isBindable_of_hasBodies (parse_formed h) hb)
    exact ⟨out, mangle_eq_ok_iff.2 ⟨scopes, hmangle⟩⟩
  obtain ⟨scopes, hmangle⟩ := mangle_eq_ok_iff.1 hrun
  obtain ⟨bound, s, hbind, -, hout⟩ := mangleWithScopes_cases hmangle
  have renamed := mangleWithScopes_spec hm hbind hmangle
  have outline := outline_of_bind hm hbind
  refine ⟨bound, s, scopes, hbind, hmangle, ?_, fun path x m ps hx => ?_⟩
  · rw [hout, blank_renamed, (bind_blank hm hbind).1]
  · obtain ⟨ps', hat⟩ := mangled_at hm hmangle hx
    refine ⟨_, ps', hat, fun hne => ?_, fun d sym hc hr => ?_, fun k i hspot hmention => ?_⟩
    · have hc : m.candidate = true := by
        by_contra hc
        exact hne (if_neg hc)
      rw [if_pos hc] at hne
      obtain ⟨d, sym, hr, hd⟩ := renamed.finished.of_shownFrom_ne (renamed.alike.length ▸ outline.scopeOf_lt path) hne
      rw [← renamed.alike.resolve_eq] at hr
      rw [← renamed.alike.parent] at hd
      exact ⟨hc, d, sym, hr, hd⟩
    · rw [if_pos hc]
      rw [renamed.alike.resolve_eq] at hr
      exact shownFrom_of_resolve hr
    · obtain ⟨-, hcandidate⟩ := marks_of_spot h hx hspot
      rw [Kind.use_of_mentionsAt hmention] at hcandidate
      rw [hcandidate]
      rfl

/-- The name of a member stays although the parameter before it takes the same name. -/
theorem mangle_keeps_member_name :
    ∃ tree p out, parse "function f(c){l:for(;;){c.b=f;break l;}}" = (.ok tree, p) ∧ tree.hasBodies = true ∧
      (tree.names.filter (·.2.candidate)).length < Nat.pow 2 53 ∧ tree.mangle true = .ok out ∧ out.blank = tree.blank ∧
      tree.at? [0, 2, 0, 1, 3, 0, 0, 0, 1] = some (.node (.identifier "b") { line := 1 } []) ∧
      tree.spot [0, 2, 0, 1, 3, 0, 0, 0, 1] = some (.dot, 1) ∧
      ∃ ps, out.at? [0, 2, 0, 1, 3, 0, 0, 0, 1] = some (.node (.identifier "b") { line := 1 } ps) := by
  obtain ⟨tree, p, hparse, htest⟩ := exists_of_test "function f(c){l:for(;;){c.b=f;break l;}}"
    (fun tree => tree.hasBodies && (tree.names.filter (·.2.candidate)).length = 4 &&
      tree.at? [0, 2, 0, 1, 3, 0, 0, 0, 1] = some (.node (.identifier "b") { line := 1 } []) &&
      tree.spot [0, 2, 0, 1, 3, 0, 0, 0, 1] = some (.dot, 1)) (by decide +kernel)
  simp only [Bool.and_eq_true, decide_eq_true_eq] at htest
  obtain ⟨⟨⟨hbodies, hcount⟩, hat⟩, hspot⟩ := htest
  have hfew : (tree.names.filter (·.2.candidate)).length < Nat.pow 2 53 := by rw [hcount]; decide
  obtain ⟨hruns, hrenames⟩ := mangle_only_renames hparse true
  obtain ⟨out, hmangle⟩ := hruns hbodies hfew
  obtain ⟨bound, s, scopes, -, -, hblank, hnames⟩ := hrenames out hmangle
  obtain ⟨y, ps, hout, -, -, hmention⟩ := hnames _ _ _ _ hat
  obtain rfl := hmention .dot 1 hspot rfl
  exact ⟨tree, p, out, hparse, hbodies, hfew, hmangle, hblank, hat, hspot, ps, hout⟩

end JsMinify
