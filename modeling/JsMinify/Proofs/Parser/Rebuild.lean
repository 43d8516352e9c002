import JsMinify.Proofs.Parser.Demand
import JsMinify.Proofs.Parser.Inherit

/-!
# Building derivations again

The words of a tree are not those of the text it was parsed from: parentheses are lost, arguments and clauses are
written in another way. `Derivation.Orderly.rebuilds` takes the derivation of a restorable tree and builds one from
the words of the tree, with the same value up to lines and lost parentheses. Most rules are kept, with what is
built again below them (`Derivation.own_of_laidOut`). An expression that has lost its parentheses is moved to the
level that its words belong to.
-/

namespace JsMinify

open List

namespace Grammar

open JsMinify.Grammar.Derivation

/-- The expressions of the symbol are not moved to another level. -/
def Sym.isOwn : Sym → Bool
  | .n (.expr l _) => !l.isTight
  | _ => true

section

variable (shows : Kind → Bool)

namespace Derivation

/-- The words of what a derivation stands for. -/
def wording (d : Derivation) : List Word := wordsOf shows [d.eval] (d.symbol.signs 0)

/-- A derivation of the same symbol from the words of the tree, with the same value. -/
def demand (d : Derivation) : Demand := ⟨d.symbol, d.wording shows, d.eval.value, fun k => d.ends k⟩

/-- A derivation that can be built again. -/
structure Rebuilds (d : Derivation) : Prop where
  /-- What is tight is derived at the level of its words. -/
  tight : ∀ l v n, d.symbol = .n (.expr l v) → d.eval.value = .node n → n.every (Node.isRestorable shows) = true →
    ∀ t, n.tight shows = some t → (Demand.closed (.n (.expr t .plain)) (n.words shows) (.node n)).Met shows
  /-- Expressions of the tight levels are tight. -/
  known : ∀ l v n, d.symbol = .n (.expr l v) → d.eval.value = .node n → (l.isTight || l == .leftSide) = true →
    n.tight shows ≠ none
  /-- What can be read back at the symbol of the derivation is derived there. -/
  own : d.symbol.isOwn = true → (∀ n, d.eval.value = .node n → Fine shows d.symbol n) → (d.demand shows).Met shows

end Derivation

end

/-! ## Words of right sides -/

section

variable {shows : Kind → Bool} {n : Node}

theorem Sym.words_self (s : Sym) (args : List Item) (i line : Nat) :
    wordsOf shows [⟨(arg args i).value, line⟩] (s.signs 0) = wordsOf shows args (s.signs i) := by
  cases s with
  | t k =>
    simp only [signs]
    split <;> rfl
  | n A => exact signs_self shows A i line

theorem signsFrom_words (all : List Item) (i : Nat) (ds : List Derivation) (h : all.drop i = ds.map eval) :
    wordsOf shows all (signsFrom i (ds.map symbol)) = ds.flatMap (wording shows) := by
  induction ds generalizing i with
  | nil => rfl
  | cons d ds ih =>
    have hd : (arg all i) = d.eval := by
      rw [arg, getD_eq_getElem?_getD, ← head?_drop, h]
      rfl
    have hrest : all.drop (i + 1) = ds.map eval := by
      rw [← drop_drop, h]
      rfl
    rw [map_cons, signsFrom, wordsOf_append, ih (i + 1) hrest, flatMap_cons, ← Sym.words_self d.symbol all i d.eval.line, hd]
    rfl

/-! ## Lists that are never empty -/

/-- The action adds an item to a list. -/
def Action.addsItem : Action → Bool
  | .seq slots => slots.any (·.isPart)
  | _ => false

/-- The rules for lists that are never empty add an item. -/
theorem rules_add_item : ∀ r ∈ rules, r.left.isSeries → r.action.addsItem := by decide +kernel

theorem Action.items_ne_nil {a : Action} (ha : a.addsItem) {args : List Item} (hn : a.run args = .node n) : n.items ≠ [] := by
  cases a with
  | seq slots =>
    cases hn
    obtain ⟨s, hmem, hpart⟩ := any_eq_true.1 ha
    have hfill : s.fill args ≠ [] := by
      cases s with
      | part i | name i => exact cons_ne_nil _ _
      | _ => cases hpart
    intro hnil
    exact hfill (flatMap_eq_nil_iff.1 hnil s hmem)
  | _ => cases ha

theorem Derivation.Valid.items_ne_nil {d : Derivation} (h : d.Valid) {A : Nonterminal} (hs : d.symbol = .n A)
    (hA : A.isSeries) (hn : d.eval.value = .node n) : n.items ≠ [] := by
  obtain ⟨r, line, below, rfl, listed, rfl, -⟩ := h.exists_rule hs
  exact Action.items_ne_nil (rules_add_item r listed hA) hn

/-! ## Rules that are kept -/

section

variable {r : Rule} {below : List Derivation} (spells : below.map symbol = r.right) {i : Nat}

include spells

theorem below_at {s : Sym} (hi : r.right[i]? = some s) : ∃ d ∈ below, d.symbol = s ∧ arg (evalAll below) i = d.eval := by
  rw [← spells, getElem?_map, Option.map_eq_some_iff] at hi
  obtain ⟨d, hd, hs⟩ := hi
  refine ⟨d, mem_of_getElem? hd, hs, ?_⟩
  rw [arg, evalAll_eq, getD_eq_getElem?_getD, getElem?_map, hd]
  rfl

variable (orderly : ∀ d ∈ below, d.Orderly)

include orderly

theorem suits_below : ItemsHold Suits r.right (evalAll below) :=
  itemsHold_below spells fun d hd => (orderly d hd).suits

theorem series_below (hi : isSeriesAt r.right i) : (nodeAt (evalAll below) i).items ≠ [] := by
  unfold isSeriesAt at hi
  split at hi
  · next A hA =>
    obtain ⟨d, hd, hs, harg⟩ := below_at spells hA
    obtain ⟨n, hn⟩ : ∃ n, d.eval.value = .node n := by
      have hsuits := (orderly d hd).suits
      rw [hs] at hsuits
      cases A with
      | argumentList | parameters | varDeclList | propertyList =>
        obtain ⟨n, hn, -⟩ := hsuits
        exact ⟨n, hn⟩
      | _ => cases hi
    have hnode : nodeAt (evalAll below) i = n := by rw [nodeAt, harg, hn]
    rw [hnode]
    exact (orderly d hd).valid.items_ne_nil hs hi hn
  · cases hi

end

namespace Derivation

variable {line : Nat}

/-- The derivation of a rule above what is built again below it. -/
theorem met_of_below {r : Rule} {below : List Derivation} (h : (rule r line below).Orderly)
    (plain : r.isPicky = false) (hbelow : ∀ d ∈ below, (d.demand shows).Met shows) :
    Demand.Met shows ⟨.n r.left, below.flatMap (wording shows), (rule r line below).eval.value,
      fun k => (rule r line below).ends k⟩ := by
  cases h with
  | rule listed spells orderly chain =>
    have hmet : Demand.Met shows _ := Demand.Met.rule listed (below.map (demand shows)) ?_ ?_ ?_ plain
      (fun k => (rule r line below).ends k) ?_ ?_
    · rw [flatMap_map, map_map] at hmet
      refine hmet.congr (Action.run_strip shows ?_ r.action)
      rw [evalAll_eq, forall₂_map_left_iff, forall₂_map_right_iff, forall₂_same]
      exact fun _ _ => rfl
    · intro x hx
      obtain ⟨d, hd, rfl⟩ := mem_map.1 hx
      exact hbelow d hd
    · rw [map_map]
      exact spells
    · rw [isChain_map]
      refine chain.imp fun d e hde k hk => ?_
      obtain ⟨t, rfl, rfl⟩ := exists_token hk
      exact hde t rfl
    · intro k hk
      simp [ends, hk]
    · intro k hk
      rw [getLast?_map, Option.any_map] at hk
      rw [ends, endsAll_eq, Bool.or_eq_true]
      exact .inr hk

/-- A rule that writes what its right side writes is kept. -/
theorem own_of_laidOut {r : Rule} {below : List Derivation} (h : (rule r line below).Orderly)
    (hlaid : r.isLaidOut) (plain : r.isPicky = false) (hbelow : ∀ d ∈ below, (d.demand shows).Met shows) :
    ((rule r line below).demand shows).Met shows := by
  have hmet := met_of_below h plain hbelow
  cases h with
  | rule listed spells orderly chain =>
    have hwords := r.words_run shows hlaid (suits_below spells orderly) (fun i hi => series_below spells orderly hi)
      (rule r line below).eval.line
    rw [← spells, signsFrom_words (evalAll below) 0 below (by rw [drop_zero, evalAll_eq])] at hwords
    rw [← hwords] at hmet
    exact hmet

end Derivation

end

end Grammar

end JsMinify
