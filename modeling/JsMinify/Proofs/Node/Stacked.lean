import JsMinify.Proofs.Node.Flags

/-!
# Printing with a stack

`Node.stacked` prints a tree as it is done with a stack of flags, one for each branch whose braces are not decided yet: an
`if` without `else` sets the flag on top. `stacked_exact` says that the stack never matters for the text, and what becomes
of it.
-/

namespace JsMinify

open List Node Spell

variable {n : Node} {r : Role} {k : Kind} {m : Mark} {parts : List Node}

/-! ## Texts without flags -/

namespace Printed

/-- The piece without its flag. -/
def plain (p : Printed) : Printed := ⟨p.text, false⟩

@[simp] theorem plain_mk (s : String) (b : Bool) : plain ⟨s, b⟩ = ⟨s, false⟩ := rfl

@[simp] theorem plain_plain (p : Printed) : p.plain.plain = p.plain := rfl

@[simp] theorem plain_append (p q : Printed) : (p ++ q).plain = p.plain ++ q.plain := rfl

@[simp] theorem plain_braced (p : Printed) : p.braced.plain = p.plain.braced := rfl

@[simp] theorem plain_inParens (p : Printed) : p.inParens.plain = p.plain.inParens := rfl

@[simp] theorem plain_join (sep : String) (ps : List Printed) : (join sep ps).plain = join sep (ps.map plain) := by
  simp [join, plain, Function.comp_def]

@[simp] theorem plain_parensIf (m : Mark) (p : Printed) : (p.parensIf m).plain = p.plain.parensIf m := by
  unfold parensIf
  split <;> rfl

@[simp] theorem plain_afterWord (word : String) (p : Printed) : (p.afterWord word).plain = p.plain.afterWord word := by
  unfold afterWord
  rw [show p.plain.startsWith _ = p.startsWith _ from rfl]
  split <;> rfl

@[simp] theorem plain_bracedOnce (p : Printed) : p.bracedOnce.plain = p.plain.bracedOnce := by
  unfold bracedOnce
  rw [show p.plain.startsWith _ = p.startsWith _ from rfl]
  split <;> rfl

end Printed

open Printed

namespace Compact

/-- A part without the flags of what is printed. -/
def plain (q : Part Out) : Part Out := ⟨q.node, Printed.plain <$> q.value, q.items.map fun e => (e.1, Printed.plain <$> e.2)⟩

@[simp] theorem plain_node (q : Part Out) : (plain q).node = q.node := rfl
@[simp] theorem plain_value (q : Part Out) : (plain q).value = Printed.plain <$> q.value := rfl
@[simp] theorem plain_items (q : Part Out) : (plain q).items = q.items.map fun e => (e.1, Printed.plain <$> e.2) := rfl

@[simp] theorem part_plain (parts : List (Part Out)) (i : Nat) :
    Algebra.part absent (parts.map plain) i = plain (Algebra.part absent parts i) := by
  simp only [Algebra.part, getD_eq_getElem?_getD, getElem?_map]
  cases parts[i]? <;> rfl

theorem mapM_plain {α : Type} (f g : α → Out) (h : ∀ a, g a = Printed.plain <$> f a) (as : List α) :
    as.mapM g = map Printed.plain <$> as.mapM f := by
  induction as with
  | nil => rfl
  | cons a as ih => simp [mapM_cons, ih, h]

@[simp] theorem present_plain (parts : List (Part Out)) : present (parts.map plain) = map Printed.plain <$> present parts := by
  rw [present, filter_map, mapM_map]
  exact mapM_plain _ _ (fun _ => rfl) _

@[simp] theorem every_plain (parts : List (Part Out)) : every (parts.map plain) = map Printed.plain <$> every parts := by
  rw [every, mapM_map]
  exact mapM_plain _ _ (fun _ => rfl) _

@[simp] theorem items_plain (q : Part Out) : items (plain q) = map Printed.plain <$> items q := by
  unfold items
  rw [plain_node]
  split
  · rfl
  · rw [plain_items, mapM_map]
    exact mapM_plain _ _ (fun _ => rfl) _

@[simp] theorem cases_plain (q : Part Out) : cases (plain q) = map Printed.plain <$> cases q := by
  unfold cases
  rw [plain_node]
  split
  · rfl
  · rw [plain_items, mapM_map]
    exact mapM_plain _ _ (fun _ => by simp) _

@[simp] theorem optional_plain (lead : String) (q : Part Out) : optional lead (plain q) = Printed.plain <$> optional lead q := by
  unfold optional
  rw [plain_node]
  split
  · rfl
  · simp

@[simp] theorem arrayItems_plain (parts : List (Part Out)) : arrayItems (parts.map plain) = Printed.plain <$> arrayItems parts := by
  induction parts with
  | nil => rfl
  | cons q parts ih =>
    rw [map_cons, arrayItems, arrayItems, plain_node]
    split
    · simp [ih]
    · simp only [isEmpty_map]
      split
      · rfl
      · simp [ih]

theorem node_plain {k : Kind} (hk : k ≠ .ifStmt) (m : Mark) (parts : List (Part Out)) :
    Printed.plain <$> node k m (parts.map plain) = Printed.plain <$> node k m parts := by
  cases k with
  | ifStmt => exact absurd rfl hk
  | block =>
    simp only [node, present_plain, bind_map_left, map_bind]
    refine congrArg _ (funext fun ps => ?_)
    rcases ps with _ | ⟨p, _ | ⟨q, ps⟩⟩ <;> simp [Function.comp_def]
  | bracket =>
    simp only [node, part_plain, plain_node]
    cases memberName? (Algebra.part absent parts 1).node <;> simp
  | setter =>
    simp only [node, part_plain, plain_node, plain_items, length_map]
    split
    · rfl
    · split
      · rfl
      · simp [Function.comp_def]
  | returnStmt | switchStmt =>
    simp only [node, part_plain, plain_node]
    split <;> simp [Function.comp_def, *]
  | function form => cases form <;> simp [node, Function.comp_def]
  | _ => simp [node, Function.comp_def, ← map_tail, apply_ite Printed.plain]

end Compact

/-! ## Printing with a stack -/

/-- What is printed, while a stack tells for the branches that are being printed if an `if` without `else` was met. -/
abbrev Stacked := StateM (List Bool)

namespace Stacked

abbrev Out := Stacked (Except TreeError String)

/-- The text, with a flag for a branch. -/
def flagged (openIf : Bool) (o : Except TreeError String) : Compact.Out := (⟨·, openIf⟩) <$> o

/-- A part, with its items if it is a sequence. -/
def visit (q : Part Out) : Stacked (Part Compact.Out) := do
  let items ← q.items.mapM fun e => return (e.1, flagged false (← e.2))
  return ⟨q.node, flagged false (← q.value), items⟩

/-- The branch of an `if`. If there is no `else` this is noted on top of the stack, and a block of one statement before an
`else` has an entry of its own. -/
def branch (no : Node) (yes : Part Out) : Stacked (Part Compact.Out) := do
  if no.isAbsent then
    modify (List.modifyHead fun _ => true)
    visit yes
  else if yes.node.isSingleBlock then
    modify (false :: ·)
    let text ← yes.value
    let met ← modifyGet fun s => (s.headD false, s.tail)
    return ⟨yes.node, flagged met text, []⟩
  else visit yes

/-- The parts of a node, in the order in which they are printed. Only an `if` looks at the stack. -/
def visitAll (k : Kind) (parts : List (Part Out)) : Stacked (List (Part Compact.Out)) :=
  match k, parts with
  | .ifStmt, [test, yes, no] => do
    let test ← visit test
    let yes ← branch no.node yes
    return [test, yes, ← visit no]
  | .doWhile, [test, body] => do
    let body ← visit body
    return [← visit test, body]
  | .function _, [name, params, body] => do
    let body ← visit body
    return [← visit name, ← visit params, body]
  | _, parts => parts.mapM visit

def algebra : Algebra Out where
  absent := return .ok (placeholder .absent)
  seq := fun ns => return .ok (placeholder (.seq (ns.map (·.1))))
  node := fun k m parts => return Printed.text <$> Compact.node k m (← visitAll k parts)

end Stacked

/-- The compact form of a tree, printed with a stack. -/
def Node.stacked (n : Node) : Stacked (Except TreeError String) := n.fold Stacked.algebra

namespace Stacked

/-- An `if` without `else` was met, or not. -/
def flag (met : Bool) (stack : List Bool) : List Bool := stack.modifyHead (· || met)

/-- A step gives this result whatever the stack, and does no more than set the top entry. -/
def Marks {α : Type} (step : Stacked α) (a : α) (met : Bool) : Prop := ∀ stack, step stack = (a, flag met stack)

namespace Marks

variable {α β : Type} {step : Stacked α} {a : α} {b : β} {f : α → Stacked β} {s t : Bool}

theorem pure (a : α) : Marks (pure a) a false := by
  intro stack
  cases stack <;> simp [flag] <;> rfl

theorem bind (h : Marks step a s) (hf : Marks (f a) b t) : Marks (step >>= f) b (s || t) := by
  intro stack
  have hbind : (step >>= f) stack = f (step stack).1 (step stack).2 := rfl
  rw [hbind, h, hf]
  cases stack <;> simp [flag, Bool.or_assoc]

theorem congr (h : Marks step a s) (hst : s = t) : Marks step a t := hst ▸ h

theorem map (g : α → β) (h : Marks step a s) : Marks (step >>= fun a => Pure.pure (g a)) (g a) s :=
  (h.bind (.pure (g a))).congr (Bool.or_false s)

theorem mapM {as : List α} {g : α → β} {met : α → Bool} (h : ∀ a ∈ as, Marks (f a) (g a) (met a)) :
    Marks (as.mapM f) (as.map g) (as.any met) := by
  induction as with
  | nil => exact .pure []
  | cons a as ih =>
    obtain ⟨ha, hrest⟩ := forall_mem_cons.1 h
    rw [mapM_cons, any_cons]
    exact ha.bind ((ih hrest).map (g a :: ·))

end Marks

theorem marks_modify : Marks (modify (modifyHead fun _ => true) : Stacked PUnit) ⟨⟩ true := by
  intro stack
  cases stack <;> simp [flag] <;> rfl

theorem flagged_compact (met : Bool) (n : Node) : flagged met n.compact = (fun p => ⟨p.text, met⟩) <$> n.fold Compact.algebra := by
  rw [flagged, compact]
  cases n.fold Compact.algebra <;> rfl

/-- A node is printed with a stack as without, and so are its items if it is a sequence. -/
def Sound (n : Node) : Prop :=
  Marks n.stacked n.compact n.spell.openIf ∧ ∀ x ∈ n.items, Marks x.stacked x.compact x.spell.openIf

theorem marks_visit (h : Sound n) :
    Marks (visit (asPart algebra n)) (Compact.plain (asPart Compact.algebra n)) (leaves n) := by
  have hplain : Compact.plain (asPart Compact.algebra n) =
      ⟨n, flagged false n.compact, n.items.map fun x => (x, flagged false x.compact)⟩ := by
    simp only [Compact.plain, asPart, flagged_compact, map_map]
    rfl
  have hitems : Marks ((asPart algebra n).items.mapM fun e => do return (e.1, flagged false (← e.2)))
      (n.items.map fun x => (x, flagged false x.compact)) (n.items.any (·.spell.openIf)) := by
    rw [asPart, mapM_map]
    exact .mapM fun x hx => (h.2 x hx).map fun o => (x, flagged false o)
  rw [hplain, leaves, Bool.or_comm]
  exact hitems.bind (h.1.map fun o => Part.mk n (flagged false o) (n.items.map fun x => (x, flagged false x.compact)))

theorem marks_branch (h : Sound n) (no : Node) : ∃ q met,
    Marks (branch no (asPart algebra n)) q (no.isAbsent || !n.isSingleBlock && leaves n) ∧ q.node = n ∧
      q.value = flagged met n.compact ∧ (no.isAbsent = false → n.isSingleBlock → met = n.spell.openIf) := by
  have hvalue := (flagged_compact false n).symm
  cases hno : no.isAbsent with
  | true =>
    refine ⟨Compact.plain (asPart Compact.algebra n), false, ?_, rfl, hvalue, fun h => by cases h⟩
    rw [branch, if_pos hno]
    exact marks_modify.bind (t := leaves n) (marks_visit h)
  | false =>
    cases hsingle : n.isSingleBlock with
    | true =>
      refine ⟨⟨n, flagged n.spell.openIf n.compact, []⟩, _, fun stack => ?_, rfl, rfl, fun _ _ => rfl⟩
      have hbranch : branch no (asPart algebra n) stack =
          (⟨n, flagged ((n.stacked (false :: stack)).2.headD false) (n.stacked (false :: stack)).1, []⟩,
            (n.stacked (false :: stack)).2.tail) := by
        rw [branch, if_neg (by simp [hno]), asPart_node, if_pos hsingle]
        rfl
      rw [hbranch, h.1]
      cases stack <;> simp [flag]
    | false =>
      refine ⟨Compact.plain (asPart Compact.algebra n), false, ?_, rfl, hvalue, fun _ h => by cases h⟩
      rw [branch, if_neg (by simp [hno]), asPart_node, if_neg (by simp [hsingle])]
      exact marks_visit h

/-- What is printed for an `if` does not depend on the flags, but for that of a branch. -/
theorem plain_ifStmt {a b b' c : Part Compact.Out} {met : Bool} (hnode : b'.node = b.node)
    (hvalue : b'.value = (fun p => ⟨p.text, met⟩) <$> b.value)
    (h : c.node.isAbsent = false → b.node.isSingleBlock → ∀ p, b.value = .ok p → p.openIf = met) :
    Printed.plain <$> Compact.node .ifStmt m [Compact.plain a, b', Compact.plain c] =
      Printed.plain <$> Compact.node .ifStmt m [a, b, c] := by
  simp only [Compact.node, Algebra.part, getD_cons_zero, getD_cons_succ, Compact.plain_node, Compact.optional_plain,
    Compact.plain_value, bind_map_left, map_bind, hnode, hvalue]
  refine congrArg _ (funext fun test => ?_)
  cases hb : b.value with
  | error e => rfl
  | ok yes =>
    cases hc : c.node.isAbsent with
    | true => rfl
    | false =>
      cases hsingle : b.node.isSingleBlock with
      | true =>
        obtain rfl := h hc hsingle yes hb
        simp
        rfl
      | false =>
        simp
        rfl

theorem compact_of_plain {ps : List (Part Compact.Out)}
    (h : Printed.plain <$> Compact.node k m ps = Printed.plain <$> Compact.node k m (parts.map (asPart Compact.algebra))) :
    Printed.text <$> Compact.node k m ps = (node k m parts).compact := by
  have htext (o : Compact.Out) : Printed.text <$> o = Printed.text <$> Printed.plain <$> o := by cases o <;> rfl
  rw [htext, h, ← htext, compact, fold_node]
  rfl

theorem marks_visitAll (hk : k ≠ .ifStmt) (hcount : k.shape.admits parts.length) (h : ∀ x ∈ parts, Sound x) :
    Marks (visitAll k (parts.map (asPart algebra))) ((parts.map (asPart Compact.algebra)).map Compact.plain) (parts.any leaves) := by
  have hall : Marks ((parts.map (asPart algebra)).mapM visit) ((parts.map (asPart Compact.algebra)).map Compact.plain) (parts.any leaves) := by
    rw [mapM_map, map_map]
    exact .mapM fun x hx => marks_visit (h x hx)
  cases k with
  | ifStmt => exact absurd rfl hk
  | doWhile =>
    obtain ⟨a, b, rfl⟩ := Shape.parts_two hcount
    simp only [forall_mem_cons] at h
    obtain ⟨ha, hb, -⟩ := h
    exact ((marks_visit hb).bind ((marks_visit ha).map fun test => [test, _])).congr (by simp [Bool.or_comm])
  | function form =>
    obtain ⟨a, b, c, rfl⟩ : ∃ a b c, parts = [a, b, c] := by cases form <;> exact Shape.parts_three hcount
    simp only [forall_mem_cons] at h
    obtain ⟨ha, hb, hc, -⟩ := h
    exact ((marks_visit hc).bind ((marks_visit ha).bind ((marks_visit hb).map fun params => [_, params, _]))).congr
      (by simp [Bool.or_comm, Bool.or_assoc])
  | _ => exact hall

theorem Formed.sound (h : Formed r n) : Sound n := by
  induction h with
  | absent => exact ⟨.pure _, by simp [Node.items]⟩
  | @seq r p ns list items ih =>
    refine ⟨?_, fun x hx => (ih x hx).1⟩
    have hstacked : (seq ns).stacked = pure (.ok (placeholder (.seq ns))) := by
      rw [stacked, fold_seq]
      simp [algebra, Function.comp_def]
    have hcompact : (seq ns).compact = .ok (placeholder (.seq ns)) := by
      rw [compact, fold_seq]
      simp [Compact.algebra, Function.comp_def]
    rw [hstacked, hcompact]
    exact .pure _
  | @node r p k m parts place takes worded count parted ih =>
    have hall : ∀ x ∈ parts, Sound x := fun x hx => by
      obtain ⟨i, hi⟩ := mem_iff_getElem?.1 hx
      exact ih i x hi
    have hnode : Formed r (.node k m parts) := .node place takes worded count parted
    refine ⟨?_, by simp [Node.items]⟩
    rw [stacked, fold_node]
    by_cases hk : k = .ifStmt
    · subst hk
      obtain ⟨a, b, c, rfl⟩ := Shape.parts_three count
      simp only [forall_mem_cons] at hall
      obtain ⟨ha, hb, hc, -⟩ := hall
      obtain ⟨q, met, hq, hqn, hqv, hmet⟩ := marks_branch hb c
      have hopen : c.isAbsent = false → b.isSingleBlock → ∀ p, b.fold Compact.algebra = .ok p → p.openIf = met :=
        fun hno hsingle p hp => by rw [hmet hno hsingle, ← (Spell.sound b).1 p hp]; rfl
      have htext : Printed.text <$> Compact.node .ifStmt m [Compact.plain (asPart Compact.algebra a), q,
          Compact.plain (asPart Compact.algebra c)] = (node .ifStmt m [a, b, c]).compact :=
        compact_of_plain (plain_ifStmt (b := asPart Compact.algebra b) hqn (hqv.trans (flagged_compact met b)) hopen)
      rw [openIf_ifStmt, ← (parted 0 a rfl).leaves_eq_openIf rfl, ← (parted 1 b rfl).leaves_eq_openIf rfl,
        ← (parted 2 c rfl).leaves_eq_openIf rfl, ← htext]
      exact ((marks_visit ha).bind (hq.bind ((marks_visit hc).map fun no => [_, q, no]))).map
        fun ps => Printed.text <$> Compact.node .ifStmt m ps
    · rw [hnode.openIf_node hk, ← compact_of_plain (Compact.node_plain hk m _)]
      exact (marks_visitAll hk count hall).map fun ps => Printed.text <$> Compact.node k m ps

end Stacked

/-- A node of a parsed tree is printed alike whatever the stack. All that changes is the top entry, which is set if the
node holds an `if` without `else` outside the branches that have an entry of their own. -/
theorem stacked_exact {text out : String} {tree : Node} {q : Parser} {path : Path} (h : parse text = (.ok tree, q))
    (hn : tree.at? path = some (.node k m parts)) (hout : (Node.node k m parts).compact = .ok out) :
    ∃ met : Bool, (met = true ↔ (Node.node k m parts).LeavesIf) ∧
      ∀ stack, (Node.node k m parts).stacked stack = (.ok out, stack.modifyHead (· || met)) := by
  obtain ⟨r, hformed⟩ := (parse_formed h).at? hn
  refine ⟨_, ?_, fun stack => hout ▸ (Stacked.Formed.sound hformed).1 stack⟩
  simp [← hformed.leaves_iff, leaves, Node.items]

/-- The braces of a branch stay around an `if` without `else`, which is not noted outside. -/
theorem stacked_exact_branch : ∃ tree q m parts met, parse "if(a)\x7bif(b)c;\x7delse d;" = (.ok tree, q) ∧
    tree.at? [0] = some (.node .ifStmt m parts) ∧
    (Node.node .ifStmt m parts).compact = .ok "if(a)\x7bif(b)c;\x7delse d;" ∧
    (met = true ↔ (Node.node .ifStmt m parts).LeavesIf) ∧ ∀ stack, (Node.node .ifStmt m parts).stacked stack =
      (.ok "if(a)\x7bif(b)c;\x7delse d;", stack.modifyHead (· || met)) := by
  obtain ⟨tree, q, hparse, htest⟩ := exists_of_test "if(a)\x7bif(b)c;\x7delse d;" (fun tree => (tree.at? [0]).any fun n =>
    n.guardsBranch && n.compact.toOption == some "if(a)\x7bif(b)c;\x7delse d;") (by decide +kernel)
  simp only [Option.any_eq_true, Bool.and_eq_true, beq_iff_eq] at htest
  obtain ⟨n, hat, hguard, hcompact⟩ := htest
  unfold guardsBranch at hguard
  split at hguard
  · have hout := ok_of_toOption hcompact
    obtain ⟨met, hmet, hstacked⟩ := stacked_exact hparse hat hout
    exact ⟨tree, q, _, _, met, hparse, hat, hout, hmet, hstacked⟩
  · cases hguard

end JsMinify
