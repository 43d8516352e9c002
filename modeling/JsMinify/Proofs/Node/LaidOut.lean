import JsMinify.Node.Pretty
import JsMinify.Proofs.Node.Spacing

/-!
# The words of laid out expressions

The layout of a node is a computation that may fail: `Gives` says what it returns. `Node.LaidOut` says
that the form of a node consists of its words at every indentation. Here this is shown for each kind of expressions, from
what holds of the parts; lists of expressions and of statements are put together on the way.
-/

namespace JsMinify

open List Lexeme Lexer TokenKind Node Word Pretty Option Bool Along

variable {op s t : String} {us ws : List Word} {k : Kind} {parts : List Node} {Q : Word → Prop} {m : Mark}

/-! ## Parts -/

/-- Kinds of nodes that are laid out with the parentheses that they stood in. -/
def Kind.showsParens : Kind → Bool
  | .regex _ | .getter | .setter | .dot | .assign _ | .unary _ _ | .binary _ | .conditional
  | .function .expression => true
  | _ => false

namespace Node

def layout (n : Node) : Pretty.Out := n.fold (algebra {})

/-- A part of a node, with its laid out form. -/
abbrev laid (n : Node) : Part Pretty.Out := asPart (algebra {}) n

/-- The words of the laid out form. -/
def layoutWords (n : Node) : List Word := n.words Kind.showsParens

/-- At every indentation the laid out form of the node consists of its words, and the last one has a property. -/
def LaidOut (Q : Word → Prop) (n : Node) : Prop :=
  ∀ i, Gives (n.layout i) fun t => Spaced Starts Q "" n.layoutWords t ""

theorem layoutWords_eq : layoutWords = words Kind.showsParens := rfl

theorem layout_node (k : Kind) (m : Mark) (parts : List Node) :
    (node k m parts).layout = Pretty.node {} k m (parts.map laid) := by
  rw [layout, fold_node]
  rfl

theorem map_value_laid (ns : List Node) : (ns.map laid).map (·.value) = ns.map layout := by
  simp [asPart, layout]

theorem layoutWords_node (k : Kind) (m : Mark) (parts : List Node) : (node k m parts).layoutWords =
    parensIf (m.parens && k.showsParens) (k.form.flatMap (segmentWords Kind.showsParens k parts)) :=
  words_node _ k m parts

section

variable {Q' : Word → Prop}

theorem LaidOut.mono {n : Node} (h : n.LaidOut Q) (hQ : ∀ w, Q w → Q' w) : n.LaidOut Q' :=
  fun i => (h i).mono fun _ ht => ht.mono (fun _ => id) hQ

theorem laidOut_of (h : ∀ i, Gives (Pretty.node {} k m (parts.map laid) i) fun t =>
      Spaced Starts Q "" (parensIf (m.parens && k.showsParens) (k.form.flatMap (segmentWords Kind.showsParens k parts))) t "") :
    (node k m parts).LaidOut Q := by
  intro i
  rw [layout_node, layoutWords_node]
  exact h i

end

end Node

namespace Spaced

variable {O : Word → Prop} {a b : String}

theorem stops (h : Spaced O (· = semi.word) a ws s b) : Spaced O Stops a ws s b := h.mono (fun _ => id) fun _ => .inl

theorem parensIf (h : Spaced Starts Closes "" ws s "") (m : Mark) :
    Spaced Starts Closes "" (JsMinify.parensIf m.parens ws) (Pretty.parensIf m s) "" := by
  unfold JsMinify.parensIf Pretty.parensIf
  split
  · exact (h.inParens.starts rfl).closed rfl
  · exact h

/-- A word with an opening parenthesis behind it. -/
theorem opening (k : TokenKind) (text : String)
    (hk : (k.isFixed && !k.word.1.isRestricted && text == k.word.2 ++ " " ++ "(")) (hO : O k.word) :
    Spaced O (· = lparen.word) "" ([k.word] ++ [lparen.word]) text "" := by
  simp only [and_eq_true, beq_iff_eq, not_eq_true'] at hk
  obtain ⟨⟨hfixed, hrestricted⟩, rfl⟩ := hk
  obtain ⟨hsound, hplain⟩ := sound_of_isFixed hfixed
  have hword : Spaced O (· = k.word) "" [k.word] (k.word.2 ++ " ") " " :=
    ((word hsound hplain).pad "" " ").mono (fun _ h => h ▸ hO) fun _ => id
  exact hword.append (token .lparen "" "(" "" rfl) (.before (by decide) (by decide) fun _ h => h ▸ ⟨hplain, hrestricted⟩)

/-- A word with an expression in parentheses behind it. -/
theorem headed (h : Spaced O (· = lparen.word) a ws s "") (h' : Spaced Starts Closes "" us t "") :
    Spaced O (· = rparen.word) a (ws ++ us ++ [rparen.word]) (s ++ t ++ ") ") " " :=
  (h.enter h' rfl).mark .rparen ") " " " rfl

/-- A statement behind a closing parenthesis. -/
theorem ruled (h : Spaced O (· = rparen.word) a ws s " ") (h' : Spaced Starts Q "" us t b)
    (hregex : ∀ v ∈ us.head?, v.1 ≠ .regex) : Spaced O Q a (ws ++ us) (s ++ t) b := by
  have hfirst : Spaced (fun v => v.Starts ∧ v.1 ≠ .regex) Q "" us t b :=
    ⟨h'.spells, h'.nonempty, fun v hv => ⟨h'.opens v hv, hregex v hv⟩, h'.closes⟩
  exact h.append hfirst (.around (by decide) (by decide) (by rintro _ rfl; decide) fun _ => id)

/-- The words of a node that does not show its parentheses. -/
theorem bare (h : Spaced O Q a ws s b)
    (hk : k.showsParens = false) (hws : ws = k.form.flatMap (segmentWords Kind.showsParens k parts)) :
    Spaced O Q a (JsMinify.parensIf (m.parens && k.showsParens) (k.form.flatMap (segmentWords Kind.showsParens k parts))) s b := by
  rw [hk, Bool.and_false, ← hws]
  exact h

/-- The words of a node that shows its parentheses. -/
theorem shown (h : Spaced Starts Closes "" ws s "")
    (hk : k.showsParens) (hws : ws = k.form.flatMap (segmentWords Kind.showsParens k parts)) :
    Spaced Starts Closes "" (JsMinify.parensIf (m.parens && k.showsParens)
      (k.form.flatMap (segmentWords Kind.showsParens k parts))) (Pretty.parensIf m s) "" := by
  rw [hk, Bool.and_true, ← hws]
  exact h.parensIf m

end Spaced

/-! ## Lists -/

namespace Pretty

@[simp] theorem isGap_indent (n : Nat) : isGap (indent n) := by
  simp [isGap, indent]

end Pretty

section

variable {xs : List Node}

/-- The items of a part are those of its node. -/
theorem Gives.items {α : Type} {P : α → Prop} {x : Node} {f : List Pretty.Out → Except TreeError α}
    (h : Gives (f (x.items.map layout)) P) : Gives (Pretty.items x.laid >>= f) P := by
  unfold Pretty.items
  split
  · nofun
  · rwa [show x.laid.items.map (·.2) = x.items.map layout by simp [asPart, layout]]

theorem gives_inline (hx : ∀ x ∈ xs, x.LaidOut Q) (i : Nat) (sep : String) :
    Gives (Pretty.inline i sep (xs.map layout)) fun t =>
      ∃ ts, List.Forall₂ (fun ws t => Spaced Starts Q "" ws t "") (xs.map layoutWords) ts ∧ t = sep.intercalate ts := by
  unfold Pretty.inline
  rw [mapM_map]
  exact .bind (.mapM fun x hmem => hx x hmem i) fun ts hts => .pure ⟨ts, forall₂_map_left_iff.2 hts, rfl⟩

theorem gives_lines (hx : ∀ x ∈ xs, x.LaidOut Q) (i : Nat) (sep : String) : Gives (lines i sep (xs.map layout)) fun t =>
      ∃ ts, List.Forall₂ (fun ws t => Spaced Starts Q (indent i) ws t "") (xs.map layoutWords) ts ∧ t = sep.intercalate ts := by
  unfold lines
  rw [mapM_map]
  refine .bind (.mapM fun x hmem => .bind (hx x hmem i) fun t ht => .pure ?_) fun ts hts =>
    .pure ⟨ts, forall₂_map_left_iff.2 hts, rfl⟩
  simpa using ht.pad (indent i) ""

/-- Statements on lines of their own. -/
theorem gives_statements (hx : ∀ x ∈ xs, x.LaidOut Stops) (hne : xs ≠ []) (i : Nat) :
    Gives (lines i "\n" (xs.map layout)) fun t =>
      Spaced Starts Stops (indent i) (joined none (xs.map layoutWords)) t "" := by
  refine (gives_lines hx i "\n").mono ?_
  rintro t ⟨ts, hts, rfl⟩
  refine Spaced.intercalate (fun {ws us s t} h h' => ?_) hts (by simpa using hne)
  have hparting : Parting Stops ("" ++ "\n" ++ indent i) Starts :=
    (Parting.broken (by rw [isGap_append, isGap_indent]; decide) (by simp)).mono (fun _ h => h.breaks) fun _ => id
  exact ((h.pad "" "\n").append h' hparting).cast (by simp) (by simp)

/-- Statements between braces. -/
theorem gives_body (hx : ∀ x ∈ xs, x.LaidOut Stops) (i : Nat) : Gives (lines (i + 2) "\n" (xs.map layout)) fun t =>
      Spaced (· = lbrace.word) (· = rbrace.word) "" ([lbrace.word] ++ joined none (xs.map layoutWords) ++ [rbrace.word])
        (body i t) "" := by
  have hopen := Spaced.token .lbrace "" "\x7b\n" "\n" rfl
  have hclose := (Spaced.token .rbrace "" "\x7d" "" rfl).pad ("\n" ++ indent i) ""
  have hgap : isGap "\n" := by decide
  by_cases hne : xs = []
  · subst hne
    refine .pure ((hopen.append hclose (.before (by decide) ?_ ?_)).cast ?_ ?_)
    · simp [hgap]
    · rintro _ rfl
      decide
    · rfl
    · change _ = body i ""
      simp only [body, String.append_assoc, String.append_empty]
  · refine (gives_statements hx hne (i + 2)).mono fun t ht => ?_
    have hlines := hopen.append ht (.behind (by decide) (by simp [hgap]) (by simp) fun _ => by decide)
    refine (hlines.append hclose (.before (by decide) (by simp [hgap]) fun w hw =>
      ⟨hw.breaks.isPlain, hw.breaks.plain.2.2⟩)).cast rfl ?_
    simp [body, String.append_assoc]

/-- Expressions with commas between them. -/
theorem gives_list {sep : String} (hsep : sep = "," ∨ sep = ", ") (hx : ∀ x ∈ xs, x.LaidOut Closes) (i : Nat) :
    Gives (Pretty.inline i sep (xs.map layout)) (Itemized (joined (some .comma) (xs.map layoutWords))) := by
  refine (gives_inline hx i sep).mono ?_
  rintro t ⟨ts, hts, rfl⟩
  exact .commas hsep hts

end

/-! ## Expressions -/

namespace Node

attribute [local simp] Kind.form Kind.sign layoutWords_eq

variable {x y z : Node} {xs : List Node}

theorem laidOut_word (w : Word) (hw : w.isSound) (hstarts : w.Starts) (hcloses : w.Closes)
    (hwords : (node k m []).layoutWords = parensIf (m.parens && k.showsParens) [w])
    (htext : ∀ i, Pretty.node {} k m [] i = .ok (if k.showsParens then Pretty.parensIf m w.2 else w.2)) :
    (node k m []).LaidOut Closes := by
  intro i
  have hword : Spaced Starts Closes "" [w] w.2 "" :=
    (Spaced.word hw hcloses.isPlain).mono (fun _ h => h ▸ hstarts) fun _ h => h ▸ hcloses
  rw [layout_node, map_nil, htext, hwords]
  refine .pure ?_
  cases k.showsParens with
  | true => simpa using hword.parensIf m
  | false => simpa [parensIf] using hword

theorem operators_spaced : ∀ op ∈ Kind.assignOps ++ Kind.binaryOps, Word.isSound (TokenKind.ofText op, op) ∧
    IsPlain (TokenKind.ofText op, op) ∧ (TokenKind.ofText op).endsOperand = false ∧ op ≠ "get" ∧ op ≠ "set" ∧
      TokenKind.ofText op ≠ .regex ∧ ((op = "in" ∨ op = "instanceof") ∨ ∃ c ∈ op.toList.head?, isNameStart c = false) := by
  decide

/-- An operator between two expressions. -/
theorem spaced_operator (hop : op ∈ Kind.assignOps ++ Kind.binaryOps) {u : String} (h : Spaced Starts Closes "" ws s "")
    (hname : op = "in" ∨ op = "instanceof" → ∀ w ∈ ws.getLast?, w.2 ≠ "get" ∧ w.2 ≠ "set")
    (h' : Spaced Starts Closes "" us u "") :
    Spaced Starts Closes "" (ws ++ [(TokenKind.ofText op, op)] ++ us) (s ++ (" " ++ op ++ " ") ++ u) "" := by
  obtain ⟨hsound, hplain, hends, hget, hset, hregex, hhead⟩ := operators_spaced op hop
  have hleft : Spaced Starts (fun w => w.Closes ∧ (op = "in" ∨ op = "instanceof" → w.2 ≠ "get" ∧ w.2 ≠ "set")) "" ws s "" :=
    ⟨h.spells, h.nonempty, h.opens, fun w hw => ⟨h.closes w hw, fun hword => hname hword w hw⟩⟩
  refine (hleft.append ((Spaced.word hsound hplain).pad " " " ") ?_).append h' ?_
  · rintro w v hw hv ⟨hcloses, hother⟩ rfl
    refine .spaced hw (by decide) (by decide) (fun hnamed => ?_) (fun h => absurd h (by decide)) ?_
    · have hplain' : (w.1 == .getProp || w.1 == .setProp) = false := by simp [hcloses.isPlain.1, hcloses.isPlain.2]
      rw [hplain']
      by_cases hword : op = "in" ∨ op = "instanceof"
      · exact absurd hnamed (not_or.2 (hother hword))
      · obtain ⟨c, hc, hnot⟩ := hhead.resolve_left hword
        obtain ⟨r, hr⟩ := head?_eq_some_iff.1 hc
        rw [show ((TokenKind.ofText op, op) : Word).2.toList = c :: r from hr]
        exact opensName_gap (by decide) (by decide) hnot r
    · have hdivides : !("" ++ (" " ++ "")).toList.contains '\n' && w.1.endsOperand := by
        rw [show w.1.endsOperand = true from hcloses]
        decide
      rw [hdivides]
      exact isReadIf_true hregex
  · rintro w v hw hv rfl hstarts
    refine .spaced hw (by decide) (by decide) (fun hnamed => absurd hnamed (not_or.2 ⟨hget, hset⟩))
      (fun h => absurd h (by decide)) ?_
    rw [hends, Bool.and_false]
    exact hstarts

theorem laidOut_binary (hop : op ∈ Kind.binaryOps) (hx : x.LaidOut Closes)
    (hname : op = "in" ∨ op = "instanceof" → ∀ w ∈ x.layoutWords.getLast?, w.2 ≠ "get" ∧ w.2 ≠ "set") (hy : y.LaidOut Closes) :
    (node (.binary op) m [x, y]).LaidOut Closes := by
  refine laidOut_of fun i => .bind (hx i) fun s hs => .bind (hy i) fun u hu => .pure ?_
  have hlaid := spaced_operator (mem_append_right _ hop) hs hname hu
  exact (hlaid.cast rfl (by simp [String.append_assoc])).shown rfl (by simp)

theorem laidOut_assign (hop : op ∈ Kind.assignOps) (hx : x.LaidOut Closes) (hy : y.LaidOut Closes) :
    (node (.assign op) m [x, y]).LaidOut Closes := by
  have hcolon : op ≠ ":" := by
    rintro rfl
    exact absurd hop (by decide)
  have hword : ¬(op = "in" ∨ op = "instanceof") := by
    rintro (rfl | rfl) <;> exact absurd hop (by decide)
  refine laidOut_of fun i => .bind (hx i) fun s hs => .bind (hy i) fun u hu => .pure ?_
  rw [if_neg hcolon]
  have hlaid := spaced_operator (mem_append_left _ hop) hs (fun h => absurd h hword) hu
  exact (hlaid.cast rfl (by simp [String.append_assoc])).shown rfl (by simp)

theorem laidOut_property (hx : x.LaidOut Closes) (hy : y.LaidOut Closes) : (node (.assign ":") m [x, y]).LaidOut Closes := by
  refine laidOut_of fun i => .bind (hx i) fun s hs => .bind (hy i) fun u hu => .pure ?_
  have hkey := (hs.mark .colon ":" "" rfl).pad "" " "
  exact ((hkey.next hu rfl).cast rfl (by simp)).shown rfl (by simp; rfl)

theorem laidOut_conditional (hx : x.LaidOut Closes) (hy : y.LaidOut Closes) (hz : z.LaidOut Closes) :
    (node .conditional m [x, y, z]).LaidOut Closes := by
  refine laidOut_of fun i => .bind (hx i) fun s hs => .bind (hy i) fun u hu => .bind (hz i) fun v hv => .pure ?_
  have hplain : ∀ w : Word, w.Closes → w.IsPlain ∧ w.1.isRestricted = false := fun w h => ⟨h.isPlain, h.isRestricted_eq⟩
  have htest := hs.append (.token .question " " " ? " " " rfl) (.before (by decide) (by decide) hplain)
  have hleft := (htest.next hu rfl).append (.token .colon " " " : " " " rfl) (.before (by decide) (by decide) hplain)
  exact (hleft.next hv rfl).shown rfl (by simp)

theorem laidOut_comma (hx : x.LaidOut Closes) (hy : y.LaidOut Closes) : (node .comma m [x, y]).LaidOut Closes := by
  refine laidOut_of fun i => .bind (hx i) fun s hs => .bind (hy i) fun u hu => .pure ?_
  have hcomma := hs.mark .comma ", " " " rfl
  exact (hcomma.next hu rfl).bare rfl (by simp)

theorem laidOut_bracket (hx : x.LaidOut Closes) (hy : y.LaidOut Closes) : (node .bracket m [x, y]).LaidOut Closes := by
  refine laidOut_of fun i => .bind (hx i) fun s hs => .bind (hy i) fun u hu => .pure ?_
  have hopen := hs.mark .lbracket "[" "" rfl
  have hclose := (hopen.enter hu rfl).mark .rbracket "]" "" rfl
  exact (hclose.closed rfl).bare rfl (by simp)

theorem laidOut_call (hx : x.LaidOut Closes) (hxs : ∀ y ∈ xs, y.LaidOut Closes) :
    (node .call m (x :: xs)).LaidOut Closes := by
  refine laidOut_of fun i => .bind (hx i) fun s hs => ?_
  have hargs := gives_list (.inr rfl) hxs i
  rw [← map_value_laid] at hargs
  refine .bind hargs fun t ht => .pure ?_
  exact ((hs.listed (fun _ h => h.isPlain) ht ")" "" rfl).closed rfl).bare rfl (by simp)

theorem laidOut_new (hx : x.LaidOut Closes) (hy : ∀ z ∈ y.items, z.LaidOut Closes) :
    (node .newExpr m [x, y]).LaidOut Closes := by
  refine laidOut_of fun i => .bind (hx i) fun s hs => .items ?_
  have hnew := (Spaced.token .kwNew "" "new " " " rfl).next hs rfl
  refine .bind (gives_list (.inr rfl) hy i) fun t ht => .pure ?_
  exact (((hnew.listed (fun _ h => h.isPlain) ht ")" "" rfl).starts rfl).closed rfl).bare rfl (by simp)

theorem laidOut_dot (hx : x.LaidOut Closes) (hpoint : ∀ w ∈ x.layoutWords.getLast?, w.takesPoint = false)
    (hy : y.LaidOut Closes) (hname : ∀ v ∈ y.layoutWords.head?, v.1 = .identifier) :
    (node .dot m [x, y]).LaidOut Closes := by
  refine laidOut_of fun i => .bind (hx i) fun s hs => .bind (hy i) fun u hu => .pure ?_
  have hleft : Spaced Starts (fun w => w.Closes ∧ w.takesPoint = false) "" x.layoutWords s "" :=
    ⟨hs.spells, hs.nonempty, hs.opens, fun w hw => ⟨hs.closes w hw, hpoint w hw⟩⟩
  have hright : Spaced (·.1 = .identifier) Closes "" y.layoutWords u "" := ⟨hu.spells, hu.nonempty, hname, hu.closes⟩
  have hdot := (hleft.append (.token .period "" "." "" rfl) .point).append hright .member
  exact hdot.shown rfl (by simp)

theorem prefixOps_plain : ∀ op ∈ Kind.prefixOps, Word.isSound (TokenKind.ofText op, op) ∧
    IsPlain (TokenKind.ofText op, op) ∧ Starts (TokenKind.ofText op, op) ∧ TokenKind.ofText op ≠ .number ∧
      op ≠ "get" ∧ op ≠ "set" ∧ (isWordOperator op → (TokenKind.ofText op).endsOperand = false) := by decide

theorem laidOut_prefix (hop : op ∈ Kind.prefixOps) (hx : x.LaidOut Closes)
    (hfuses : isWordOperator op = false → ∀ v ∈ x.layoutWords.head?, v.fuses op = false) :
    (node (.unary op false) m [x]).LaidOut Closes := by
  obtain ⟨hsound, hplain, hstarts, hnumber, hget, hset, hends⟩ := prefixOps_plain op hop
  refine laidOut_of fun i => .bind (hx i) fun s hs => .pure ?_
  have hlaid : Spaced Starts Closes "" ([(TokenKind.ofText op, op)] ++ x.layoutWords)
      (if isWordOperator op then op ++ " " ++ s else op ++ s) "" := by
    have hword : Spaced Starts (· = (TokenKind.ofText op, op)) "" [(TokenKind.ofText op, op)] op "" :=
      (Spaced.word hsound hplain).mono (fun _ h => h ▸ hstarts) fun _ => id
    split
    · next hop =>
      have hspaced : Spaced Starts (· = (TokenKind.ofText op, op)) "" [(TokenKind.ofText op, op)] (op ++ " ") " " :=
        (hword.pad "" " ").cast rfl (by simp)
      refine hspaced.append hs ?_
      rintro w v hw hv rfl hstarts
      refine .spaced hw (by decide) (by decide) (fun h => absurd h (not_or.2 ⟨hget, hset⟩)) (fun h => absurd h (by decide)) ?_
      rw [hends hop, Bool.and_false]
      exact hstarts
    · next hop =>
      have hright : Spaced (fun v => v.fuses op = false) Closes "" x.layoutWords s "" :=
        ⟨hs.spells, hs.nonempty, hfuses (by simpa using hop), hs.closes⟩
      refine hword.append hright ?_
      rintro w v hw hv rfl hfuses
      rw [Word.fuses, or_eq_false_iff, not_eq_false'] at hfuses
      refine .of_stops hv (fun c hc => ?_) (fun h => absurd h hnumber) hplain.1 hplain.2 hfuses.2
      simpa [mem_def.1 hc] using hfuses.1
  exact hlaid.shown rfl (by simp)

theorem updateOps_plain : ∀ op ∈ Kind.updateOps, Word.isSound (TokenKind.ofText op, op) ∧
    IsPlain (TokenKind.ofText op, op) ∧ Closes (TokenKind.ofText op, op) ∧ TokenKind.ofText op ≠ .regex ∧
      ∃ c ∈ op.toList.head?, c ∈ followers ∧ c ≠ '.' := by decide

theorem laidOut_postfix (hop : op ∈ Kind.updateOps) (hx : x.LaidOut Closes) :
    (node (.unary op true) m [x]).LaidOut Closes := by
  obtain ⟨hsound, hplain, hcloses, hregex, c, hc, hfollow⟩ := updateOps_plain op hop
  refine laidOut_of fun i => .bind (hx i) fun s hs => .pure ?_
  have hlaid := hs.append (Spaced.word hsound hplain) (by
    rintro w v hw hv hclosed rfl
    refine .behindOperand hw hclosed hv (fun d hd => ?_) (fun _ hd => ?_) hregex
    · obtain rfl : c = d := some.inj (hc.symm.trans hd)
      exact hfollow.1
    · exact hfollow.2 (some.inj (hc.symm.trans hd)))
  exact (hlaid.mono (fun _ => id) fun _ h => h ▸ hcloses).shown rfl (by simp)

/-- The items of an array behind an opening bracket or a comma. -/
theorem gives_elements (hxs : ∀ x ∈ xs, x.isElision = false → x.LaidOut Closes) {O : Word → Prop} {a : String}
    (h : Spaced O (fun w => w = lbracket.word ∨ w = comma.word) a ws s "") (i : Nat) :
    Gives (arrayItems i (xs.map laid)) fun t =>
      Spaced O (fun w => w = lbracket.word ∨ w = comma.word ∨ w.Closes) a
        (ws ++ elementWords (xs.map fun n => (n, n.layoutWords))) (s ++ t) "" := by
  have hparting : Parting (fun w => w = lbracket.word ∨ w = comma.word) "" Starts := by
    rintro w v hw hv (h | h) hstarts
    · exact Parting.opened (by decide) w v hw hv h hstarts
    · exact Parting.opened (by decide) w v hw hv h hstarts
  induction xs generalizing ws s with
  | nil =>
    refine .pure ((h.mono (fun _ => id) fun _ h => ?_).cast (by simp [elementWords]) (by simp))
    rcases h with h | h <;> simp [h]
  | cons x xs ih =>
    obtain ⟨hx, hxs⟩ := forall_mem_cons.1 hxs
    have hcomma {Q : Word → Prop} {us : List Word} {u : String} (h : Spaced O Q a us u "") (hQ : ∀ w, Q w → w.IsPlain) :
        Spaced O (fun w => w = lbracket.word ∨ w = comma.word) a (us ++ [comma.word]) (u ++ ",") "" :=
      (h.markAfter hQ .comma "," "" rfl).mono (fun _ => id) fun _ => .inr
    rw [map_cons, map_cons, elementWords, arrayItems]
    change Gives (if x.isElision then _ else _) _
    by_cases helision : x.isElision
    · rw [if_pos helision, if_pos helision]
      have hnext := hcomma h (by rintro w (rfl | rfl) <;> decide)
      exact .bind (ih hxs hnext) fun t ht => .pure (ht.cast (by simp) (by simp [String.append_assoc]))
    · rw [if_neg helision, if_neg helision]
      have hitem (t : String) (ht : Spaced Starts Closes "" x.layoutWords t "") : Spaced O Closes a (ws ++ x.layoutWords) (s ++ t) "" :=
        h.append ht hparting
      cases xs with
      | nil => exact (hx (by simpa using helision) i).mono fun t ht => (hitem t ht).mono (fun _ => id) fun _ h => .inr (.inr h)
      | cons y xs =>
        refine .bind (hx (by simpa using helision) i) fun t ht => ?_
        have hnext := hcomma (hitem t ht) fun _ h => h.isPlain
        exact .bind (ih hxs hnext) fun u hu => .pure (hu.cast (by simp) (by simp [String.append_assoc]))

theorem laidOut_array (hxs : ∀ x ∈ xs, x.isElision = false → x.LaidOut Closes) : (node .array m xs).LaidOut Closes := by
  have hopen : Spaced (· = lbracket.word) (fun w => w = lbracket.word ∨ w = comma.word) "" [lbracket.word] "[" "" :=
    (Spaced.token .lbracket "" "[" "" rfl).mono (fun _ => id) fun _ => .inl
  refine laidOut_of fun i => .bind (gives_elements hxs hopen i) fun t ht => .pure ?_
  have hclose := ht.markAfter (by rintro w (rfl | rfl | h); exacts [by decide, by decide, h.isPlain]) .rbracket "]" "" rfl
  exact ((hclose.starts rfl).closed rfl).bare rfl (by simp)

theorem laidOut_object (hxs : ∀ x ∈ xs, x.LaidOut Closes) : (node .object m xs).LaidOut Closes := by
  have hopen := Spaced.token .lbrace "" "\x7b\n" "\n" rfl
  have hclose := Spaced.token .rbrace "" "\x7d" "" rfl
  have hgap : isGap "\n" := by decide
  have hends {a b : String} {ws : List Word} {t : String} (h : Spaced (· = lbrace.word) (· = rbrace.word) a ws t b) :
      Spaced Starts Closes a ws t b := (h.starts rfl).closed rfl
  by_cases hne : xs = []
  · subst hne
    refine laidOut_of fun i => .pure ?_
    have hobject := hopen.append (hclose.pad (indent i) "") (.before (by decide) (by simp [hgap]) (by rintro _ rfl; decide))
    refine (hends (hobject.cast rfl ?_)).bare rfl (by simp [joined])
    change _ = "\x7b\n" ++ "" ++ "" ++ indent i ++ "\x7d"
    simp only [String.append_assoc, String.append_empty]
  · refine laidOut_of fun i => ?_
    have hlines := gives_lines hxs (i + 2) ",\n"
    rw [← map_value_laid] at hlines
    refine .bind hlines ?_
    rintro t ⟨ts, hts, rfl⟩
    refine .pure ?_
    have hlist : Spaced Starts Closes (indent (i + 2)) (joined (some .comma) (xs.map layoutWords)) (",\n".intercalate ts) "" := by
      refine Spaced.intercalate (fun {ws us s t} h h' => ?_) hts (by simpa using hne)
      exact (h.mark .comma ",\n" "\n" rfl).append h' (.behind (by decide) (by simp [hgap]) (by simp) fun _ => by decide)
    have hprops := hopen.append hlist (.behind (by decide) (by simp [hgap]) (by simp) fun _ => by decide)
    have hobject := hprops.append (hclose.pad ("\n" ++ indent i) "")
      (.before (by decide) (by simp [hgap]) fun w hw => ⟨hw.isPlain, hw.isRestricted_eq⟩)
    refine (hends (hobject.cast rfl ?_)).bare rfl (by simp)
    simp [hne, String.append_assoc]

/-- A part that may be left out. -/
theorem gives_optional (hx : x = .absent ∨ x.LaidOut Q) (lead : String) (i : Nat) : Gives (optional lead i x.laid) fun t =>
      x = .absent ∧ t = "" ∨ x.isAbsent = false ∧ ∃ s, Spaced Starts Q "" x.layoutWords s "" ∧ t = lead ++ s := by
  change Gives (if x.isAbsent then .ok "" else do return lead ++ (← x.layout i)) _
  split
  · next ha => exact .pure (.inl ⟨eq_absent ha, rfl⟩)
  · next ha => exact .bind (of_present hx ha i) fun s hs => .pure (.inr ⟨by simpa using ha, s, hs, rfl⟩)

theorem laidOut_varDecl (hx : x.LaidOut Closes) (hy : y = .absent ∨ y.LaidOut Closes) :
    (node .varDecl m [x, y]).LaidOut Closes := by
  refine laidOut_of fun i => .bind (hx i) fun s hs => .bind (gives_optional hy " = " i) ?_
  rintro t (⟨rfl, rfl⟩ | ⟨hpresent, u, hu, rfl⟩)
  · exact .pure ((hs.cast rfl String.append_empty.symm).bare rfl (by simp [isAbsent]))
  · have hlaid := spaced_operator (show "=" ∈ Kind.assignOps ++ Kind.binaryOps by decide) hs (fun h => absurd h (by decide)) hu
    refine .pure ((hlaid.cast rfl ?_).bare rfl (by simp [hpresent]; rfl))
    rw [String.append_assoc]
    rfl

/-- Parameters and a body behind a text. -/
theorem spaced_function {vs : List Word} {u : String} (h : Spaced Starts Q "" ws s "")
    (hQ : ∀ w, Q w → w.IsPlain) (hparams : Itemized us t) (hbody : Spaced (· = lbrace.word) (· = rbrace.word) "" vs u "") :
    Spaced Starts (· = rbrace.word) "" (ws ++ [lparen.word] ++ us ++ [rparen.word] ++ vs) (s ++ "(" ++ t ++ ") " ++ u) "" := by
  exact (h.listed hQ hparams ") " " " rfl).append hbody (.before (by decide) (by decide) (by rintro _ rfl; decide))

/-- The word before a function, with its name. -/
theorem spaced_named (h : Spaced Starts Closes "" ws s "") :
    Spaced Starts Closes "" ([kwFunction.word] ++ ws) ("function" ++ (" " ++ s)) "" := by
  have hword := (Spaced.token .kwFunction "" "function" "" rfl).append (h.pad " " "")
    (.behind (by decide) (by decide) (by decide) fun _ => by decide)
  exact (hword.cast rfl (by simp)).starts rfl

theorem laidOut_declared (hx : x.LaidOut Closes) (hy : ∀ p ∈ y.items, p.LaidOut Closes)
    (hz : ∀ p ∈ z.items, p.LaidOut Stops) : (node (.function .declared) m [x, y, z]).LaidOut Stops := by
  refine laidOut_of fun i => .items (.bind (gives_body hz i) fun text htext => ?_)
  refine Gives.bind (P := fun name => Spaced Starts Closes "" ([kwFunction.word] ++ x.layoutWords) ("function" ++ name) "")
    (.map (hx i) fun s hs => spaced_named hs) fun name hname => ?_
  refine .items (.bind (gives_list (.inr rfl) hy i) fun params hparams => .pure ?_)
  have hfunction := spaced_function hname (fun _ h => h.isPlain) hparams htext
  exact (hfunction.mono (fun _ => id) fun _ => .inr).bare rfl (by simp)

theorem laidOut_function (hx : x = .absent ∨ x.LaidOut Closes) (hy : ∀ p ∈ y.items, p.LaidOut Closes)
    (hz : ∀ p ∈ z.items, p.LaidOut Stops) : (node (.function .expression) m [x, y, z]).LaidOut Closes := by
  refine laidOut_of fun i => .items (.bind (gives_body hz i) fun text htext => ?_)
  refine .bind (gives_optional hx " " i) fun name hopt => ?_
  have hname : Spaced Starts (fun w => w = kwFunction.word ∨ w.Closes) "" ([kwFunction.word] ++ x.layoutWords)
      ("function" ++ name) "" := by
    rcases hopt with ⟨rfl, rfl⟩ | ⟨-, s, hs, rfl⟩
    · exact (Spaced.token .kwFunction "" "function" "" rfl).mono (fun _ h => h ▸ by decide) fun _ => .inl
    · exact (spaced_named hs).mono (fun _ => id) fun _ => .inr
  have hplain : ∀ w, w = kwFunction.word ∨ w.Closes → w.IsPlain := by
    rintro w (rfl | h)
    exacts [by decide, h.isPlain]
  refine .items (.bind (gives_list (.inr rfl) hy i) fun params hparams => .pure ?_)
  exact ((spaced_function hname hplain hparams htext).closed rfl).shown rfl (by simp)

/-- The name of an accessor behind the word that announces it. -/
theorem spaced_accessor (k : TokenKind) (text : String) (hk : k = .getProp ∨ k = .setProp)
    (htext : text = k.word.2 ++ " ") (h : Spaced (·.1 = .identifier) Q "" ws s "") :
    Spaced Starts Q "" ([k.word] ++ ws) (text ++ s) "" := by
  subst htext
  obtain ⟨u, hu, rfl⟩ := h.spells
  obtain ⟨v, us, rfl⟩ := exists_cons_of_ne_nil h.nonempty
  have hv := hu.sound v (by simp)
  have hname : v.1 = .identifier := h.opens v rfl
  have hword : k.word.isSound ∧ k.word.Starts ∧ (k.word.1 == .getProp || k.word.1 == .setProp) := by
    rcases hk with rfl | rfl <;> decide
  obtain ⟨hsound, hstarts, hmarked⟩ := hword
  have hparted : Parted k.word " " v := by
    refine .blank hsound (fun _ => ?_) (by rw [isReadIf, hname])
    obtain ⟨c, r, hc, -⟩ := exists_head hv
    have hstart := head_of_name hv hname c (by rw [hc]; rfl)
    rw [hmarked, hc, opensName, hstart]
    decide
  refine ⟨⟨_, .cons " " hsound hparted hu, by simp⟩, by simp, ?_, ?_⟩
  · rintro _ hw
    cases hw
    exact hstarts
  · intro w hw
    exact h.closes w (by simpa using hw)

theorem laidOut_getter (hx : x.LaidOut Closes) (hname : ∀ v ∈ x.layoutWords.head?, v.1 = .identifier)
    (hy : ∀ p ∈ y.items, p.LaidOut Stops) : (node .getter m [x, y]).LaidOut Closes := by
  refine laidOut_of fun i => .items (.bind (gives_body hy i) fun text htext => .bind (hx i) fun s hs => .pure ?_)
  have haccessor := spaced_accessor .getProp "get " (.inl rfl) (by decide) ⟨hs.spells, hs.nonempty, hname, hs.closes⟩
  have hgetter := spaced_function haccessor (fun _ h => h.isPlain) (.inl ⟨rfl, rfl⟩) htext
  refine ((hgetter.closed rfl).cast rfl ?_).shown rfl (by simp)
  simp [String.append_assoc]

theorem laidOut_setter (hx : x.LaidOut Closes) (hname : ∀ v ∈ x.layoutWords.head?, v.1 = .identifier)
    (hy : ∀ p ∈ y.items, p.LaidOut Closes) (hz : ∀ p ∈ z.items, p.LaidOut Stops) :
    (node .setter m [x, y, z]).LaidOut Closes := by
  refine laidOut_of fun i => .orThrow (.orThrow ?_)
  refine .items (.bind (gives_list (.inl rfl) hy i) fun params hparams => ?_)
  refine .items (.bind (gives_body hz i) fun text htext => .bind (hx i) fun s hs => .pure ?_)
  have haccessor := spaced_accessor .setProp "set " (.inr rfl) (by decide) ⟨hs.spells, hs.nonempty, hname, hs.closes⟩
  have hsetter := spaced_function haccessor (fun _ h => h.isPlain) hparams htext
  exact (hsetter.closed rfl).shown rfl (by simp)

end Node

end JsMinify
