import JsMinify.Proofs.Node.Operand
import JsMinify.Proofs.Node.Scanning

/-!
# What carries over to whole expressions

An expression is printed as tokens, the texts of its parts and the statements of functions, one after another or
between brackets. `Composes C D` says that `C` carries over to what is put together in these ways, if `D` holds of
the statements. So every expression has `C`, and all else that is no statement (`Composes.node`).
-/

namespace JsMinify

open List Spell Node Lexeme Bool TokenKind

variable {C D : Path → Spelling → Prop} {w : Path} {s t : Spelling} {ss : List Spelling} {ns : List Node} {x : Node}
  {i : Nat} {text name : String} {r : Role}

/-- Kinds of nodes that are put together without statements of their own. -/
def Kind.isQuiet : Kind → Bool
  | .assign _ | .getter | .setter | .varDecl | .varStatement | .elision _ => true
  | k => k.isExpression

/-- The property carries over to pieces in a row. -/
structure Joins (Q : Path → Spelling → Prop) : Prop where
  congr : ∀ {w s t}, s.pieces = t.pieces → Q w s → Q w t
  append : ∀ {w s t}, Q w s → Q w t → Q w (s ++ t)
  under : ∀ {w s i}, Q (w ++ [i]) s → Q w (s.under i)
  empty : ∀ {w}, Q w .empty

/-- The first property carries over from parts to what is put together from them. The second one is what the
statements of a function have. -/
structure Composes (C D : Path → Spelling → Prop) : Prop extends Joins C where
  gap : ∀ {w}, C w .gap
  tok : ∀ {w k text}, ((⟨some k, text, []⟩ : Piece).isSound && k != .divide && k.isQuiet) = true → C w (.tok k text)
  divide : ∀ {w s}, s.opens = true → C w s → C w (op "/" ++ s)
  inParens : ∀ {w s}, C w s → C w s.inParens
  inBrackets : ∀ {w s}, C w s → C w (.tok .lbracket "[" ++ s ++ .tok .rbracket "]")
  listed : Joins D
  weaken : ∀ {w s}, C w s → D w s
  braced : ∀ {w s}, D w s → C w s.braced

/-- What a node has in its place. A hole in an array goes with the array. -/
def Place.Composed (C D : Path → Spelling → Prop) (p : Place) (w : Path) (n : Node) : Prop :=
  match p with
  | .element => n.isElision = false → C w n.spell
  | .statement | .block | .program | .caseClause | .defaultClause | .catchClause | .finallyClause => D w n.spell
  | _ => C w n.spell

theorem Spelling.pieces_append (s t : Spelling) : (s ++ t).pieces = s.pieces ++ t.pieces := rfl

/-! ## Parts in a row -/

namespace Joins

variable {Q : Path → Spelling → Prop} (q : Joins Q)

include q

theorem join {sep : Spelling} (hsep : Q w sep) (h : ∀ s ∈ ss, Q w s) : Q w (.join sep.pieces ss) := by
  induction ss with
  | nil => exact q.congr rfl q.empty
  | cons s ss ih =>
    obtain ⟨hs, hss⟩ := forall_mem_cons.1 h
    cases ss with
    | nil => exact q.congr (by simp [Spelling.join]) hs
    | cons t ss =>
      have hpieces : (Spelling.join sep.pieces (s :: t :: ss)).pieces =
          (s ++ sep ++ .join sep.pieces (t :: ss)).pieces := intercalate_cons_cons
      exact q.congr hpieces.symm (q.append (q.append hs hsep) (ih hss))

theorem concat (h : ∀ s ∈ ss, Q w s) : Q w (.concat ss) := q.join q.empty h

theorem numbered (h : ∀ j x, ns[j]? = some x → Q (w ++ [i + j]) x.spell) : ∀ s ∈ numbered i (ns.map spell), Q w s := by
  intro s hs
  obtain ⟨j, hj⟩ := mem_iff_getElem?.1 hs
  rw [getElem?_numbered, getElem?_map, Option.map_map] at hj
  obtain ⟨x, hx, rfl⟩ := Option.map_eq_some_iff.1 hj
  exact q.under (h j x hx)

/-- The parts of a node that are all in one place. -/
theorem parts (h : ∀ j x, ns[j]? = some x → Q (w ++ [j]) x.spell) : ∀ s ∈ Spell.numbered 0 (ns.map spell), Q w s :=
  q.numbered fun j x hx => by rw [Nat.zero_add]; exact h j x hx

/-- The parts behind the first one. -/
theorem rest (a : Node) (h : ∀ j x, ns[j]? = some x → Q (w ++ [j + 1]) x.spell) :
    ∀ s ∈ Spell.numbered 1 ((((a :: ns).map (asPart algebra)).drop 1).map (·.value)), Q w s := by
  rw [map_cons, drop_one, tail_cons, map_map]
  exact q.numbered fun j x hx => by rw [Nat.add_comm]; exact h j x hx

theorem items (h : ∀ j x, ns[j]? = some x → Q (w ++ [i] ++ [j]) x.spell) :
    ∀ s ∈ items i (asPart algebra (.seq ns)), Q w s := by
  have hvalues : (asPart algebra (.seq ns)).items.map (·.2) = ns.map spell := by
    simp only [asPart, Node.items, map_map]
    rfl
  intro s hs
  rw [Spell.items, hvalues] at hs
  obtain ⟨t, ht, rfl⟩ := mem_map.1 hs
  exact q.under (q.parts h t ht)

theorem optional {lead : Spelling} (hlead : Q w lead) (h : x = .absent ∨ Q (w ++ [i]) x.spell) :
    Q w (Spell.optional lead i (asPart algebra x)) := by
  unfold Spell.optional
  split
  · exact q.empty
  · next ha => exact q.append hlead (q.under (of_present h ha))

end Joins

theorem PartsHold.present_eq {R : Place → Path → Node → Prop} {k : Kind} {parts : List Node} (h : PartsHold R k parts w)
    {p : Place} (hk : k.shape = ⟨[], some p⟩) : present 0 (parts.map (asPart algebra)) = numbered 0 (parts.map spell) := by
  have hall := Formed.of_rest hk h.parted
  exact present_eq_numbered (fun n hn => (hall n hn).isAbsent_eq_false) 0

/-! ## The name of a member -/

theorem isNameChar_of_name? {s : List Char} {n : Nat} (h : name? s = some n) : ∀ c ∈ s.take n, isNameChar c := by
  obtain ⟨-, rfl⟩ := name?_eq h
  intro c hc
  rw [take_add, mem_append] at hc
  unfold isNameChar
  rcases hc with hc | hc
  · rw [all_take_run _ _ c hc, Bool.true_or]
  · rw [all_take_run _ _ c hc, Bool.or_true]

/-- A name that fills a text is one lexeme. -/
theorem isWhole_of_name? {s : List Char} (h : name? s = some s.length) (hw : ofWord (.ofList s) = .identifier) :
    isWhole .identifier s := by
  have hnone := accessor?_of_isNameChar (take_length ▸ isNameChar_of_name? h)
  have hrule := rule?_word h (hnone "get") (hnone "set")
  rw [take_length, hw] at hrule
  simp [isWhole, hrule]

theorem isWhole_of_isIdentifier (h : isIdentifier name) (hb : '\n' ∉ name.toList) : isWhole .identifier name.toList := by
  unfold isIdentifier at h
  simp only at h
  split at h
  · cases h
  · next n hn =>
    simp only [and_eq_true, or_eq_true, decide_eq_true_eq, Option.isNone_iff_eq_none] at h
    obtain ⟨hend | hend, hfree⟩ := h
    · have hlen : n = name.toList.length := Nat.le_antisymm (name?_le hn) (drop_eq_nil_iff.1 hend)
      refine isWhole_of_name? (hlen ▸ hn) ?_
      rw [String.ofList_toList, ofWord, hfree]
      rfl
    · exact absurd (mem_of_mem_drop (by rw [hend]; exact mem_singleton_self _)) hb

theorem mem_of_mem_stripQuotes {q c : Char} {s : List Char} (h : c ∈ stripQuotes q s) : c ∈ s := by
  unfold stripQuotes at h
  have hdrop := mem_reverse.1 ((dropWhile_sublist _).mem (mem_reverse.1 h))
  exact (dropWhile_sublist _).mem hdrop

/-- The name that is printed for the string in brackets is one lexeme. -/
theorem memberName?_whole (h : memberName? n = some name) (hn : Formed r n) : isWhole .identifier name.toList := by
  unfold memberName? at h
  split at h
  · next text m parts =>
    have hbreak : '\n' ∉ text.toList := by
      cases hn with
      | node _ _ worded _ _ =>
        simp only [Kind.worded, isWhole, and_eq_true, not_eq_true', contains_eq_mem, decide_eq_false_iff_not] at worded
        exact worded.2
    simp only [Option.ite_none_right_eq_some, Option.some.injEq] at h
    obtain ⟨hid, rfl⟩ := h
    refine isWhole_of_isIdentifier hid ?_
    rw [String.toList_ofList]
    intro hmem
    split at hmem
    · split at hmem
      · exact hbreak (mem_of_mem_stripQuotes hmem)
      · exact hbreak hmem
    · cases hmem
  · cases h

/-! ## Expressions -/

theorem ops_sound : ∀ text ∈ Kind.assignOps ++ Kind.prefixOps ++ Kind.updateOps ++ Kind.binaryOps ++ [":"],
    (⟨some (.ofText text), text, []⟩ : Piece).isSound ∧ (ofText text).isQuiet ∧
      (text = "/" ∨ ofText text != .divide) := by decide

namespace Composes

variable (c : Composes C D) {k : TokenKind}

include c

/-- A token of a node, which is the word of the node. -/
theorem word (h : isWhole k text.toList)
    (hk : !k.isTrivia && k != .divide && k.isQuiet && k != .getProp && k != .setProp) : C w (.tok k text) := by
  simp only [and_eq_true, bne_iff_ne] at hk
  obtain ⟨⟨⟨⟨hsolid, hdivide⟩, hquiet⟩, hget⟩, hset⟩ := hk
  refine c.tok ?_
  rw [hquiet, Bool.and_true, bne_iff_ne.2 hdivide, Bool.and_true]
  unfold Piece.isSound
  split
  · next he => cases he
  · next he => exact absurd (Option.some.inj he) hget
  · next he => exact absurd (Option.some.inj he) hset
  · next he =>
    cases he
    exact and_eq_true_iff.2 ⟨hsolid, h⟩

/-- A word before a part, with a blank between them. -/
theorem led (h : (⟨some k, text, []⟩ : Piece).isSound && k != .divide && k.isQuiet)
    (hs : C w s) : C w (.tok k text ++ .gap ++ s) :=
  c.append (c.append (c.tok h) c.gap) hs

theorem index (hs : C w s) (ht : C w t) : C w (s ++ .tok .lbracket "[" ++ t ++ .tok .rbracket "]") :=
  c.congr (by simp [Spelling.pieces_append]) (c.append hs (c.inBrackets ht))

theorem parensIf (m : Mark) (h : C w s) : C w (s.parensIf m) := by
  unfold Spelling.parensIf
  split
  · exact c.inParens h
  · exact h

theorem commas (h : ∀ s ∈ ss, C w s) : C w (.commas ss) :=
  have hcomma : C w (.tok .comma ",") := c.tok rfl
  c.join hcomma h

/-- The statements of a function, which may be left out. -/
theorem statements (h : (Role.optionalList .statement).Holds (Place.Composed C D) (w ++ [i]) x) :
    C w (Spelling.concat (items i (asPart algebra x))).braced := by
  refine c.braced (c.listed.concat ?_)
  rcases h with rfl | ⟨ns, rfl, hns⟩
  · nofun
  · exact c.listed.items hns

theorem arrayItems (h : ∀ j x, ns[j]? = some x → x.isElision = false → C (w ++ [i + j]) x.spell) :
    C w (arrayItems i (ns.map (asPart algebra))) := by
  induction ns generalizing i with
  | nil => exact c.empty
  | cons n ns ih =>
    have hrest : C w (Spell.arrayItems (i + 1) (ns.map (asPart algebra))) := by
      refine ih fun j x hx => ?_
      rw [Nat.add_assoc, Nat.add_comm 1 j]
      exact h (j + 1) x hx
    have hcomma : C w (.tok .comma ",") := c.tok rfl
    rw [map_cons, Spell.arrayItems]
    split
    · exact c.append hcomma hrest
    · next hhole =>
      have hfirst : C w (n.spell.under i) := c.under (h 0 n rfl (by simpa using hhole))
      split
      · exact hfirst
      · exact c.append (c.append hfirst hcomma) hrest

theorem op (h : text ∈ Kind.assignOps ++ Kind.prefixOps ++ Kind.updateOps ++ Kind.binaryOps ++ [":"]) (hd : text ≠ "/") :
    C w (op text) := by
  obtain ⟨hsound, hquiet, hdivide⟩ := ops_sound text h
  exact c.tok (by rw [hsound, hquiet, hdivide.resolve_left hd]; rfl)

theorem binary (h : text ∈ Kind.binaryOps) {right : Node} (hs : C w s) (ht : C w t) (hfirst : t.opens) :
    C w (s ++ operator text right ++ t) := by
  by_cases hd : text = "/"
  · subst hd
    have hop : operator "/" right = Spell.op "/" := by simp [operator]
    rw [hop]
    exact c.congr (by simp [Spelling.pieces_append]) (c.append hs (c.divide hfirst ht))
  · have hop : C w (Spell.op text) := c.op (by simp [h]) hd
    refine c.append (c.append hs ?_) ht
    unfold operator
    split
    · exact c.append (c.append c.gap hop) c.gap
    · split
      · exact c.append hop c.gap
      · exact hop

/-- The header of a `for` statement with semicolons. -/
theorem forHeader {a b e : Node} (ha : a = .absent ∨ C (w ++ [0]) a.spell) (hb : b = .absent ∨ C (w ++ [1]) b.spell)
    (he : e = .absent ∨ C (w ++ [2]) e.spell) :
    C w (optional .empty 0 (asPart algebra a) ++ (if a.needsHeaderSemi then .tok .semi ";" else .empty) ++
      optional .empty 1 (asPart algebra b) ++ .tok .semi ";" ++ optional .empty 2 (asPart algebra e)) := by
  have hsemi : C w (.tok .semi ";") := c.tok rfl
  refine c.append (c.append (c.append (c.append (c.optional c.empty ha) ?_) (c.optional c.empty hb)) hsemi)
    (c.optional c.empty he)
  split
  · exact hsemi
  · exact c.empty

/-- The header of a `for` statement with `in`. -/
theorem forInHeader {a b : Node} (ha : C (w ++ [0]) a.spell) (hb : C (w ++ [1]) b.spell) :
    C w ((if a.isVarDecl then .tok .kwVar "var" ++ .gap ++ a.spell.under 0 else a.spell.under 0) ++ .gap ++
      .tok .kwIn "in" ++ .gap ++ b.spell.under 1) := by
  refine c.append (c.append (c.append (c.append ?_ c.gap) (c.tok rfl)) c.gap) (c.under hb)
  split
  · exact c.led rfl (c.under ha)
  · exact c.under ha

/-- A part in its place, as it is printed. -/
theorem node {k : Kind} {m : Mark} {parts : List Node} (hk : k.isQuiet) (hhole : ∀ text, k ≠ .elision text)
    (h : PartsHold (Place.Composed C D) k parts w) : C w (Spell.node k m (parts.map (asPart algebra))) := by
  have hw := h.worded
  cases k with
  | identifier | number | string => exact c.word hw rfl
  | regex => exact c.parensIf m (c.word (k := .regex) hw rfl)
  | null | this => exact c.tok rfl
  | boolean s =>
    simp only [Kind.worded, or_eq_true, beq_iff_eq] at hw
    rcases hw with rfl | rfl <;> exact c.tok rfl
  | elision text => exact absurd rfl (hhole text)
  | array =>
    refine c.inBrackets (c.arrayItems fun j x hx => ?_)
    rw [Nat.zero_add]
    exact h.each j x hx
  | object =>
    rw [Spell.node, map_map]
    exact c.braced (c.weaken (c.commas (c.parts h.each)))
  | getter =>
    obtain ⟨key, body, rfl, hkey, hbody⟩ := h.two rfl
    exact c.parensIf m (c.append (c.append (c.led rfl (c.under hkey)) (c.inParens c.empty)) (c.statements hbody))
  | setter =>
    obtain ⟨key, params, body, rfl, hkey, ⟨ps, rfl, hparams⟩, hbody⟩ := h.three rfl
    have hlist := c.inParens (c.concat (c.items hparams))
    exact c.parensIf m (c.append (c.append (c.led rfl (c.under hkey)) hlist) (c.statements hbody))
  | newExpr =>
    obtain ⟨callee, args, rfl, hcallee, xs, rfl, hargs⟩ := h.two rfl
    exact c.append (c.led rfl (c.under hcallee)) (c.inParens (c.commas (c.items hargs)))
  | call =>
    obtain ⟨callee, args, rfl⟩ := Shape.parts_cons h.count
    have hargs := c.commas (c.rest callee fun j x hx => h.each (j + 1) x hx)
    exact c.parensIf m (c.append (c.under (h.each 0 callee rfl)) (c.inParens hargs))
  | bracket =>
    obtain ⟨a, b, rfl, ha', hb'⟩ := h.two rfl
    have ha : C w (a.spell.under 0) := c.under ha'
    have hb : C w (b.spell.under 1) := c.under hb'
    have hname : ∀ name, memberName? b = some name → isWhole .identifier name.toList :=
      fun name he => memberName?_whole he (h.parted 1 b rfl)
    unfold Spell.node
    simp only
    split
    · next name he => exact c.append (c.append ha (c.tok rfl)) (c.word (hname name he) rfl)
    · exact c.index ha hb
  | dot | comma =>
    obtain ⟨a, b, rfl, ha, hb⟩ := h.two rfl
    exact c.parensIf m (c.append (c.append (c.under ha) (c.tok rfl)) (c.under hb))
  | assign text =>
    have hop : C w (Spell.op text) := by
      simp only [Kind.worded, or_eq_true, beq_iff_eq, contains_iff_mem] at hw
      refine c.op ?_ ?_
      · rcases hw with rfl | hw <;> simp [*]
      · rintro rfl
        revert hw
        decide
    obtain ⟨p, hp, hshape⟩ := Kind.shape_assign text
    obtain ⟨a, b, rfl, ha, hb⟩ := h.two hshape
    have hleft : C (w ++ [0]) a.spell := by rcases hp with rfl | rfl <;> exact ha
    exact c.parensIf m (c.append (c.append (c.under hleft) hop) (c.under hb))
  | unary text after =>
    obtain ⟨a, rfl, ha'⟩ := h.one rfl
    have ha : C w (a.spell.under 0) := c.under ha'
    cases after with
    | true =>
      have hmem : text ∈ Kind.updateOps := contains_iff_mem.1 hw
      exact c.parensIf m (c.append ha (c.op (by simp [hmem]) (by rintro rfl; revert hmem; decide)))
    | false =>
      have hmem : text ∈ Kind.prefixOps := contains_iff_mem.1 hw
      have hop : C w (Spell.op text) := c.op (by simp [hmem]) (by rintro rfl; revert hmem; decide)
      refine c.parensIf m ?_
      simp only [false_eq_true, if_false]
      split
      · exact c.append (c.append hop c.gap) ha
      · exact c.append hop ha
  | binary text =>
    obtain ⟨a, b, rfl, ha, hb⟩ := h.two rfl
    have hfirst := ((Formed.operand (h.parted 1 b rfl)).under 1).first
    exact c.parensIf m (c.binary (contains_iff_mem.1 hw) (c.under ha) (c.under hb) hfirst)
  | conditional =>
    obtain ⟨x, y, z, rfl, hx, hy, hz⟩ := h.three rfl
    exact c.parensIf m (c.append (c.append (c.append (c.append (c.under hx) (c.tok rfl))
      (c.under hy)) (c.tok rfl)) (c.under hz))
  | function form =>
    cases form with
    | declared => cases hk
    | expression =>
      obtain ⟨name, params, body, rfl, hname, ⟨ps, rfl, hparams⟩, hbody⟩ := h.three rfl
      have hlist := c.inParens (c.commas (c.items hparams))
      exact c.parensIf m (c.append (c.append (c.append (c.tok rfl) (c.optional c.gap hname)) hlist) (c.statements (.inr hbody)))
  | varDecl =>
    obtain ⟨name, init, rfl, hname, hinit⟩ := h.two rfl
    exact c.append (c.under hname) (c.optional (c.tok rfl) hinit)
  | varStatement =>
    rw [Spell.node, h.present_eq rfl]
    exact c.append (c.led rfl (c.commas (c.parts h.each))) (c.tok rfl)
  | _ => cases hk

end Composes

end JsMinify
