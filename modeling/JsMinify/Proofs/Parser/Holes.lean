import JsMinify.Node.Pretty
import JsMinify.Proofs.Node.Members
import JsMinify.Proofs.Parser.Chains

/-!
# Arrays with holes

A comma in an array separates two elements, or it is a hole, or it stands behind the last element and means nothing. A list
of holes and names is printed such that the parser takes every comma for what it was (`array_holes_kept`). The grammar takes
an array in runs, each of them some holes and the name behind them, and then the holes behind the last name.
-/

namespace JsMinify

open List

/-- What stands in an array: a hole, or a name. -/
abbrev Element := Option String

namespace Node

variable {n : Node} {shows : Kind → Bool}

/-- The element of an array that the node is. -/
def element? : Node → Option Element
  | .node (.elision _) _ _ => some none
  | .node (.identifier x) _ _ => some (some x)
  | _ => none

theorem element?_cases {e : Option String} (h : n.element? = some e) : e = none ∧ n.isElision ∨
    ∃ x m parts, e = some x ∧ n = .node (.identifier x) m parts ∧ n.isElision = false := by
  unfold element? at h
  split at h <;> cases h
  · exact .inl ⟨rfl, rfl⟩
  · exact .inr ⟨_, _, _, rfl, rfl, rfl⟩

theorem element?_strip (n : Node) : (n.strip shows).element? = n.element? := by
  cases n with
  | node k m parts =>
    rw [strip_node]
    cases k <;> rfl
  | seq ns => rw [strip_seq]; rfl
  | absent => rfl

/-- Nodes keep their kind and their parts when they are stripped. -/
theorem exists_of_strip {k : Kind} {m : Mark} {parts : List Node} (h : n.strip shows = .node k m parts) :
    ∃ m' parts', n = .node k m' parts' ∧ parts'.map (strip shows) = parts := by
  cases n with
  | node k' m' parts' =>
    rw [strip_node, node.injEq] at h
    obtain ⟨rfl, -, hparts⟩ := h
    exact ⟨m', parts', rfl, hparts⟩
  | seq ns => rw [strip_seq] at h; cases h
  | absent => cases h

end Node

namespace Grammar

variable {shows : Kind → Bool} {es : List Element} {ws : List Word} {ns items : List Node} {x : String} {k : Nat}

/-! ## Derivations -/

def hole : Node := .node (.elision ",") { line := 0 } []

def elementNode (e : Element) : Node := e.elim hole nameExpr

def commas (k : Nat) : List Word := replicate k TokenKind.comma.word

theorem met_elision (shows : Kind → Bool) (k : Nat) :
    (Demand.closed (.n .elision) (commas (k + 1)) (.node (.seq (replicate (k + 1) hole)))).Met shows := by
  induction k with
  | zero =>
    exact Demand.Met.built (r := ⟨.elision, [.t .comma], .seq [.leaf .elision 0]⟩) (by decide) (.word _ .nil) rfl rfl rfl
  | succ k ih =>
    have hmet := Demand.Met.built (r := ⟨.elision, [.n .elision, .t .comma], .seq [.items 0, .leaf .elision 1]⟩) (by decide)
      (.cons ih (.word _ .nil)) rfl rfl (v := .node (.seq (replicate (k + 1) hole ++ [hole]))) (by simp [Action.run]; rfl)
    rwa [append_nil, commas, ← replicate_succ', ← replicate_succ'] at hmet

theorem met_holes (shows : Kind → Bool) (k : Nat) :
    (Demand.closed (.n .elisionOpt) (commas k) (.node (.seq (replicate k hole)))).Met shows := by
  cases k with
  | zero => exact .built (r := ⟨.elisionOpt, [.n .empty], .seq []⟩) (by decide) (.cons met_empty .nil) rfl rfl rfl
  | succ k => exact (met_elision shows k).pass (by decide) rfl

theorem met_elementName (shows : Kind → Bool) (x : String) :
    (Demand.closed assignmentExpr [(.identifier, x)] (.node (nameExpr x))).Met shows :=
  (met_nameExpr shows x).to_plain.climb (v := .plain) (rfl : Level.assignment.covers 20 .primary)

/-- A name behind some holes. -/
abbrev Run := Nat × String

namespace Run

def elements (r : Run) : List Element := replicate r.1 none ++ [some r.2]

def words (r : Run) : List Word := commas r.1 ++ [(.identifier, r.2)]

theorem map_elements (r : Run) : r.elements.map elementNode = replicate r.1 hole ++ [nameExpr r.2] := by
  rw [elements, map_append, map_replicate]
  rfl

/-- Every list of elements is made up of runs and of the holes behind them. -/
theorem exists_runs (es : List Element) : ∃ (rs : List Run) (k : Nat), es = rs.flatMap elements ++ replicate k none := by
  induction es with
  | nil => exact ⟨[], 0, rfl⟩
  | cons e es ih =>
    obtain ⟨rs, k, rfl⟩ := ih
    cases e with
    | some x => exact ⟨(0, x) :: rs, k, rfl⟩
    | none =>
      cases rs with
      | nil => exact ⟨[], k + 1, rfl⟩
      | cons r rs => exact ⟨(r.1 + 1, r.2) :: rs, k, rfl⟩

theorem met_first (shows : Kind → Bool) (r : Run) :
    (Demand.closed (.n .elementList) r.words (.node (.seq (r.elements.map elementNode)))).Met shows := by
  rw [map_elements]
  exact Demand.Met.built (r := ⟨.elementList, [.n .elisionOpt, assignmentExpr], .seq [.items 0, .part 1]⟩) (by decide)
    (.cons (met_holes shows r.1) (.cons (met_elementName shows r.2) .nil)) rfl rfl (by simp [Action.run]; rfl)

theorem met_next (h : (Demand.closed (.n .elementList) ws (.node (.seq ns))).Met shows) (r : Run) :
    (Demand.closed (.n .elementList) (ws ++ TokenKind.comma.word :: r.words)
      (.node (.seq (ns ++ r.elements.map elementNode)))).Met shows := by
  rw [map_elements]
  exact Demand.Met.built (r := ⟨.elementList, [.n .elementList, .t .comma, .n .elisionOpt, assignmentExpr],
      .seq [.items 0, .items 2, .part 3]⟩) (by decide)
    (.cons h (.word _ (.cons (met_holes shows r.1) (.cons (met_elementName shows r.2) .nil)))) rfl rfl
    (by simp [Action.run]; rfl)

/-- Further runs behind a list of elements. -/
theorem met_list (h : (Demand.closed (.n .elementList) ws (.node (.seq ns))).Met shows) (rs : List Run) :
    (Demand.closed (.n .elementList) (ws ++ rs.flatMap fun r => TokenKind.comma.word :: r.words)
      (.node (.seq (ns ++ (rs.flatMap elements).map elementNode)))).Met shows := by
  induction rs generalizing ws ns with
  | nil => simpa using h
  | cons r rs ih => simpa using ih (met_next h r)

end Run

/-- The words of elements: each name has a comma behind it unless it is the last element, and a hole is a comma. -/
def elementsWords : List Element → List Word
  | [] => []
  | none :: es => TokenKind.comma.word :: elementsWords es
  | some x :: es => (.identifier, x) :: if es.isEmpty then [] else TokenKind.comma.word :: elementsWords es

theorem elementsWords_holes (k : Nat) (es : List Element) :
    elementsWords (replicate k none ++ es) = commas k ++ elementsWords es := by
  induction k with
  | zero => rfl
  | succ k ih =>
    rw [replicate_succ, cons_append, elementsWords, ih]
    rfl

theorem elementsWords_replicate (k : Nat) : elementsWords (replicate k none) = commas k := by
  simpa [elementsWords] using elementsWords_holes k []

/-- The words of runs and of holes behind them. Only the first run has no comma before it. -/
theorem elementsWords_runs (r : Run) (rs : List Run) (k : Nat) :
    elementsWords (r.elements ++ (rs.flatMap Run.elements ++ replicate k none)) =
      r.words ++ (rs.flatMap (fun r => TokenKind.comma.word :: r.words) ++ if k = 0 then [] else commas (k + 1)) := by
  induction rs generalizing r with
  | nil =>
    rw [Run.elements, append_assoc, elementsWords_holes, Run.words, append_assoc]
    cases k with
    | zero => rfl
    | succ k =>
      have hne : (replicate (k + 1) (none : Element)).isEmpty = false := rfl
      rw [flatMap_nil, nil_append, singleton_append, elementsWords, hne, if_neg Bool.false_ne_true, elementsWords_replicate]
      rfl
  | cons r' rs ih =>
    have hne : (r'.elements ++ (rs.flatMap Run.elements ++ replicate k none)).isEmpty = false := by simp [Run.elements]
    rw [flatMap_cons, append_assoc, Run.elements, append_assoc, elementsWords_holes, singleton_append, elementsWords, hne,
      if_neg Bool.false_ne_true, ih]
    simp [Run.words]

def arrayNode (es : List Element) : Node := .node .array {} (es.map elementNode)

/-- Elements up to the last name, and the holes behind it. The first comma behind the name is no hole. -/
theorem met_array_of_list (h : (Demand.closed (.n .elementList) ws (.node (.seq ns))).Met shows) (k : Nat) :
    (Demand.closed (.n .arrayLiteral)
      (TokenKind.lbracket.word :: (ws ++ (if k = 0 then [] else commas (k + 1)) ++ [TokenKind.rbracket.word]))
      (.node (.node .array {} (ns ++ replicate k hole)))).Met shows := by
  cases k with
  | zero =>
    have hmet := Demand.Met.built
      (r := ⟨.arrayLiteral, [.t .lbracket, .n .elementList, .t .rbracket], .make .array 0 [.items 1]⟩) (by decide)
      (.word _ (.cons h (.word _ .nil))) rfl rfl (v := .node (.node .array {} ns)) (by simp [Action.run]; rfl)
    simpa using hmet
  | succ k =>
    have hmet := Demand.Met.built (r := ⟨.arrayLiteral, [.t .lbracket, .n .elementList, .t .comma, .n .elisionOpt,
        .t .rbracket], .make .array 0 [.items 1, .items 3]⟩) (by decide)
      (.word _ (.cons h (.word _ (.cons (met_holes shows (k + 1)) (.word _ .nil))))) rfl rfl
      (v := .node (.node .array {} (ns ++ replicate (k + 1) hole))) (by simp [Action.run]; rfl)
    exact hmet.words_congr (by simp [commas, replicate_succ])

/-- An array of holes and names. -/
theorem met_array (shows : Kind → Bool) (es : List Element) : (Demand.closed (.n .arrayLiteral)
    (TokenKind.lbracket.word :: (elementsWords es ++ [TokenKind.rbracket.word])) (.node (arrayNode es))).Met shows := by
  obtain ⟨rs, k, rfl⟩ := Run.exists_runs es
  cases rs with
  | nil =>
    have hmet := Demand.Met.built (r := ⟨.arrayLiteral, [.t .lbracket, .n .elisionOpt, .t .rbracket],
        .make .array 1 [.items 1]⟩) (by decide) (.word _ (.cons (met_holes shows k) (.word _ .nil))) rfl rfl
      (v := .node (.node .array {} (replicate k hole))) (by simp [Action.run]; rfl)
    rw [flatMap_nil, nil_append, elementsWords_replicate, arrayNode, map_replicate]
    simpa [elementNode] using hmet
  | cons r rs =>
    have hmet := met_array_of_list (Run.met_list (Run.met_first shows r) rs) k
    rw [flatMap_cons, append_assoc, elementsWords_runs]
    simpa [arrayNode, elementNode] using hmet

/-! ## Texts -/

def elementsText : List Element → String
  | [] => ""
  | none :: es => "," ++ elementsText es
  | some x :: es => if es.isEmpty then x else x ++ "," ++ elementsText es

theorem spaced_elements (h : ∀ x, some x ∈ es → Word.isSound (.identifier, x)) :
    Spaced Word.Starts (· = TokenKind.semi.word) "" (elementsWords es ++ [TokenKind.rbracket.word, TokenKind.semi.word])
      (elementsText es ++ "];") "" := by
  have hclose := (Spaced.token .rbracket "" "]" "" rfl).markAfter (by rintro _ rfl; decide) .semi ";" "" rfl
  induction es with
  | nil => exact hclose.starts rfl
  | cons e es ih =>
    have hcomma := (Spaced.token .comma "" "," "" rfl).enter (ih fun x hx => h x (mem_cons_of_mem e hx)) rfl
    cases e with
    | none => exact (hcomma.starts rfl).cast rfl (by rw [elementsText, String.append_assoc])
    | some x =>
      have hname := (Spaced.name (h x mem_cons_self)).mono (fun _ => Word.starts_of_name) fun _ h => h.isPlain
      cases es with
      | nil => exact hname.append hclose (.soft (by decide) fun _ => id)
      | cons e es =>
        have hall := hname.append hcomma (.soft (by decide) fun _ => id)
        exact hall.cast rfl (by simp [elementsText, String.append_assoc])

/-- The text of an array is split into its words. -/
theorem splits_array (h : ∀ x, some x ∈ es → Word.isSound (.identifier, x)) :
    SplitsInto ("[" ++ elementsText es ++ "]" ++ ";")
      (TokenKind.lbracket.word :: (elementsWords es ++ [TokenKind.rbracket.word]) ++ [TokenKind.semi.word]) := by
  have hspaced := (Spaced.token .lbracket "" "[" "" rfl).enter (spaced_elements h) rfl
  exact ((hspaced.starts rfl).cast (by simp) (by simp [String.append_assoc])).splitsInto

/-- The text of an array is parsed into its elements. -/
theorem parse_array (h : ∀ x, some x ∈ es → Lexeme.isWhole .identifier x.toList) :
    ∃ tree p, parse ("[" ++ elementsText es ++ "]" ++ ";") = (.ok tree, p) ∧ ∃ m m' m'' items,
      tree = .node .program m [.node .exprStmt m' [.node .array m'' items]] ∧ items.map Node.element? = es.map some := by
  have hmet := (met_array (fun _ => true) es).pass (b := .expr .primary .noBrace) (by decide) rfl
  obtain ⟨tree, p, hparse, hstrip⟩ := parse_of_expression
    (hmet.climb (v := .noBrace) (rfl : Level.comma.covers 20 .primary)) (splits_array fun x hx => name_sound (h x hx))
  refine ⟨tree, p, hparse, ?_⟩
  simp only [Node.strip_node, map_cons, map_nil, arrayNode] at hstrip
  obtain ⟨m, statements, rfl, hstatements⟩ := Node.exists_of_strip hstrip
  obtain ⟨statement, rfl, hstatement⟩ := map_eq_singleton_iff.1 hstatements
  obtain ⟨m', exprs, rfl, hexprs⟩ := Node.exists_of_strip hstatement
  obtain ⟨array, rfl, harray⟩ := map_eq_singleton_iff.1 hexprs
  obtain ⟨m'', items, rfl, hitems⟩ := Node.exists_of_strip harray
  refine ⟨m, m', m'', items, rfl, ?_⟩
  have helements := congrArg (List.map Node.element?) hitems
  simp only [map_map, Function.comp_def, Node.element?_strip] at helements
  rw [helements]
  refine map_congr_left fun e _ => ?_
  cases e <;> rfl

/-! ## Printing -/

open Node

/-- Nodes and the elements that they are, one by one. -/
theorem forall₂_elements (h : items.map element? = es.map some) : Forall₂ (fun n e => n.element? = some e) items es := by
  have heq : Forall₂ Eq (items.map element?) (es.map some) := forall₂_eq_eq_eq.symm ▸ h
  rwa [forall₂_map_left_iff, forall₂_map_right_iff] at heq

theorem compact_elements (h : Forall₂ (fun n e => n.element? = some e) items es) :
    Compact.arrayItems (items.map (asPart Compact.algebra)) = .ok ⟨elementsText es, false⟩ := by
  induction h with
  | nil => rfl
  | @cons n e items es hn hitems ih =>
    have hempty : (items.map (asPart Compact.algebra)).isEmpty = es.isEmpty := by cases hitems <;> rfl
    rw [map_cons, Compact.arrayItems, ih, hempty, Spell.asPart_node]
    rcases element?_cases hn with ⟨rfl, hhole⟩ | ⟨x, m, parts, rfl, rfl, hname⟩
    · rw [if_pos hhole]
      rfl
    · rw [hname, if_neg Bool.false_ne_true, Spell.asPart_value, fold_node, elementsText]
      split <;> rfl

theorem pretty_elements {style : Pretty.Style} (i : Nat) (h : Forall₂ (fun n e => n.element? = some e) items es) :
    Pretty.arrayItems i (items.map (asPart (Pretty.algebra style))) = .ok (elementsText es) := by
  induction h with
  | nil => rfl
  | @cons n e items es hn hitems ih =>
    have hempty : (items.map (asPart (Pretty.algebra style))).isEmpty = es.isEmpty := by cases hitems <;> rfl
    rw [map_cons, Pretty.arrayItems, ih, hempty, Spell.asPart_node]
    rcases element?_cases hn with ⟨rfl, hhole⟩ | ⟨x, m, parts, rfl, rfl, hname⟩
    · rw [if_pos hhole]
      rfl
    · rw [hname, if_neg Bool.false_ne_true, Spell.asPart_value, fold_node, elementsText]
      split <;> rfl

/-- Holes and names in an array survive printing and parsing: both forms of the array as a statement are parsed into one
statement that is an array of the same holes and names in the same order. -/
theorem array_holes_kept {items : List Node} (h : items.map element? = es.map some) (hnames : ∀ x, some x ∈ es → IsLoneName x)
    (m m' : Mark) : ∃ out out', (Node.node .exprStmt m [.node .array m' items]).compact = .ok out ∧
      (Node.node .exprStmt m [.node .array m' items]).pretty {} = .ok out' ∧ ∀ text ∈ [out, out'],
        ∃ tree p, parse text = (.ok tree, p) ∧ ∃ m₁ m₂ m₃ items',
          tree = .node .program m₁ [.node .exprStmt m₂ [.node .array m₃ items']] ∧
            items'.map element? = items.map element? := by
  have helements := forall₂_elements h
  have hparse := parse_array fun x hx => isLoneName_iff.1 (hnames x hx)
  have hcompact : (Node.node .exprStmt m [.node .array m' items]).compact = .ok ("[" ++ elementsText es ++ "]" ++ ";") := by
    have harray : (Node.node .array m' items).fold Compact.algebra = .ok ⟨"[" ++ elementsText es ++ "]", false⟩ := by
      rw [fold_node]
      show (do return "[" ++ (← Compact.arrayItems _) ++ "]") = _
      rw [compact_elements helements]
      rfl
    refine compact_of_fold (p := ⟨"[" ++ elementsText es ++ "]" ++ ";", false⟩) ?_
    rw [fold_node]
    show (do return (← (Node.node .array m' items).fold Compact.algebra) ++ ";") = _
    rw [harray]
    rfl
  have hpretty : (Node.node .exprStmt m [.node .array m' items]).pretty {} = .ok ("[" ++ elementsText es ++ "]" ++ ";") := by
    have harray : (Node.node .array m' items).fold (Pretty.algebra {}) 0 = .ok ("[" ++ elementsText es ++ "]") := by
      rw [fold_node]
      show (do return "[" ++ (← Pretty.arrayItems 0 _) ++ "]") = _
      rw [pretty_elements 0 helements]
      rfl
    rw [pretty, fold_node]
    show (do return (← (Node.node .array m' items).fold (Pretty.algebra {}) 0) ++ ";") = _
    rw [harray]
    rfl
  refine ⟨_, _, hcompact, hpretty, fun text htext => ?_⟩
  obtain rfl : text = _ := by simpa using htext
  rw [h]
  exact hparse

/-- Holes before, between and behind names. -/
theorem array_holes_kept_around : ∃ out out',
    (Node.node .exprStmt {} [.node .array {} [hole, nameExpr "a", hole, nameExpr "b", hole, hole]]).compact = .ok out ∧
      (Node.node .exprStmt {} [.node .array {} [hole, nameExpr "a", hole, nameExpr "b", hole, hole]]).pretty {} = .ok out' ∧
      ∀ text ∈ [out, out'], ∃ tree p, parse text = (.ok tree, p) ∧ ∃ m₁ m₂ m₃ items',
        tree = .node .program m₁ [.node .exprStmt m₂ [.node .array m₃ items']] ∧
          items'.map element? = [some none, some (some "a"), some none, some (some "b"), some none, some none] := by
  have hnames : ∀ x, some x ∈ [none, some "a", none, some "b", none, none] → IsLoneName x := by
    intro x hx
    have hx' : x = "a" ∨ x = "b" := by simpa using hx
    rcases hx' with rfl | rfl <;> exact isLoneName_iff.2 (by decide)
  exact array_holes_kept rfl hnames {} {}

end Grammar

end JsMinify
