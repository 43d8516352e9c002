import JsMinify.Proofs.Node.LaidOut

/-!
# The words of laid out statements

The forms of statements consist of their words, if this holds of their parts (`Node.LaidOut`). The clauses of a `switch` end
with a line break (`Broken`). Kinds of statements that are laid out in the same way share a theorem: `laidOut_ruled` is
about those with an expression in parentheses, and `laidOut_jump` about those that may have a label.
-/

namespace JsMinify

open Lexeme Lexer TokenKind Node Word Bool List

/-! ## Lines -/

/-- A text with a line break behind it. -/
def Broken (lead : String) (ws : List Word) (text : String) : Prop :=
  ∃ trail, isGap trail = true ∧ '\n' ∈ trail.toList ∧ Spaced Starts Breaks lead ws text trail

namespace Broken

variable {a lead s t : String} {ws us : List Word}

theorem of_spaced {Q : Word → Prop} (h : Spaced Starts Q a ws s "\n") (hQ : ∀ w, Q w → w.Breaks) : Broken a ws s :=
  ⟨"\n", by decide, by decide, h.mono (fun _ => id) hQ⟩

theorem pad (h : Broken a ws s) {c d : String} (hd : isGap d) : Broken (c ++ a) ws (c ++ s ++ d) := by
  obtain ⟨b, hgap, hbreak, hb⟩ := h
  exact ⟨b ++ d, by simp [hgap, hd], by simp [hbreak], hb.pad c d⟩


theorem append (h : Broken a ws s) (hlead : isGap lead) (h' : Broken lead us t) : Broken a (ws ++ us) (s ++ t) := by
  obtain ⟨b, hgap, hbreak, hb⟩ := h
  obtain ⟨d, hgap', hbreak', hd⟩ := h'
  exact ⟨d, hgap', hbreak', hb.append hd (.broken (by simp [hgap, hlead]) (by simp [hbreak]))⟩

/-- A closing brace on a line of its own. -/
theorem close (h : Broken a ws s) (hlead : isGap lead) :
    Spaced Starts (· = rbrace.word) a (ws ++ [rbrace.word]) (s ++ lead ++ "\x7d") "" := by
  obtain ⟨b, hgap, hbreak, hb⟩ := h
  have hclose := (Spaced.token .rbrace "" "\x7d" "" rfl).pad lead ""
  refine (hb.append hclose (.before (by decide) (by simp [hgap, hlead]) fun w hw => ⟨hw.isPlain, hw.plain.2.2⟩)).cast rfl ?_
  simp [String.append_assoc]

end Broken

variable {O : Word → Prop} {s t a : String} {ws : List Word}

/-- A part of a `for` header that may be left out, and what ends it. -/
theorem Spaced.part {x : Node} (h : Spaced O (· = semi.word) a ws s " ")
    (ht : x = .absent ∧ t = "" ∨ x.isAbsent = false ∧ ∃ u, Spaced Starts Closes "" x.layoutWords u "" ∧ t = "" ++ u)
    (k : TokenKind) (text : String) (hk : Parting.softMarks.contains k && text == k.word.2 ++ " ") :
    Spaced O (· = k.word) a (ws ++ x.layoutWords ++ [k.word]) (s ++ t ++ text) " " := by
  rcases ht with ⟨rfl, rfl⟩ | ⟨-, u, hu, rfl⟩
  · rw [and_eq_true, beq_iff_eq, contains_iff_mem] at hk
    have hword : Spaced (· = k.word) (· = k.word) "" [k.word] text " " :=
      .token k "" text " " (by simp [Parting.isFixed_of_soft hk.1, hk.2])
    exact (h.append hword (.before hk.1 (by decide) (by rintro _ rfl; decide))).cast (by simp [layoutWords_eq]) (by simp)
  · exact (((h.next hu rfl).mark k text " " hk).cast rfl (by simp))

namespace Node

attribute [local simp] Kind.form Kind.sign layoutWords_eq

variable {m : Mark} {x y z : Node} {xs : List Node} {k : Kind} {i : Nat}

/-- Statements on lines of their own, if there are any. -/
theorem gives_statements? (hxs : ∀ x ∈ xs, x.LaidOut Stops) (i : Nat) :
    Gives (Pretty.lines i "\n" (xs.map layout)) fun t => xs = [] ∧ t = "" ∨
      Spaced Starts Stops (Pretty.indent i) (joined none (xs.map layoutWords)) t "" := by
  by_cases hne : xs = []
  · subst hne
    exact .pure (.inl ⟨rfl, rfl⟩)
  · exact (gives_statements hxs hne i).mono fun _ => .inr

theorem present_eq (hxs : ∀ x ∈ xs, x.isAbsent = false) : Pretty.present (xs.map laid) = xs.map layout := by
  rw [Pretty.present, filter_asPart _ hxs, map_value_laid]

theorem laidOut_block (hxs : ∀ x ∈ xs, x.LaidOut Stops) (hpresent : ∀ x ∈ xs, x.isAbsent = false) :
    (node .block m xs).LaidOut Stops := by
  refine laidOut_of fun i => ?_
  have hbody := gives_body hxs i
  rw [← present_eq hpresent] at hbody
  refine .bind hbody fun t ht => .pure ?_
  exact ((ht.starts rfl).mono (fun _ => id) fun _ => .inr).bare rfl (by simp)

theorem laidOut_varStatement (hxs : ∀ x ∈ xs, x.LaidOut Closes) (hpresent : ∀ x ∈ xs, x.isAbsent = false) :
    (node .varStatement m xs).LaidOut (· = semi.word) := by
  refine laidOut_of fun i => ?_
  have hlist := gives_list (.inr rfl) hxs i
  rw [← present_eq hpresent] at hlist
  refine .bind hlist fun t ht => .pure ?_
  have hvar : Spaced Starts (· = kwVar.word) "" [kwVar.word] "var " " " :=
    (Spaced.token .kwVar "" "var " " " rfl).starts rfl
  have hlaid : Spaced Starts (· = semi.word) "" ([kwVar.word] ++ joined (some .comma) (xs.map layoutWords) ++ [semi.word])
      ("var " ++ t ++ ";") "" := by
    rcases ht with ⟨hnil, rfl⟩ | ht
    · rw [hnil]
      exact (hvar.append (.token .semi "" ";" "" rfl) (.before (by decide) (by decide) (by rintro _ rfl; decide))).cast
        rfl (by simp)
    · exact (hvar.next ht rfl).mark .semi ";" "" rfl
  exact hlaid.bare rfl (by simp)

theorem laidOut_exprStmt (hx : x.LaidOut Closes) : (node .exprStmt m [x]).LaidOut Stops := by
  refine laidOut_of fun i => .bind (hx i) fun s hs => .pure ?_
  have hlaid := hs.mark .semi ";" "" rfl
  exact hlaid.stops.bare rfl (by simp)

theorem laidOut_if (hx : x.LaidOut Closes) (hpresent : x.isAbsent = false) (hy : y.LaidOut Stops)
    (hregex : ∀ v ∈ y.layoutWords.head?, v.1 ≠ .regex) (hz : z = .absent ∨ z.LaidOut Stops) :
    (node .ifStmt m [x, y, z]).LaidOut Stops := by
  refine laidOut_of fun i => .bind (gives_optional (.inr hx) "" i) ?_
  rintro s (⟨rfl, -⟩ | ⟨-, s, hs, rfl⟩)
  · cases hpresent
  refine .bind (hy i) fun u hu => .bind (gives_optional hz " else " i) ?_
  have hif := ((Spaced.opening (O := Starts) .kwIf "if (" (by decide) (by decide)).headed hs).ruled hu hregex
  rintro t (⟨rfl, rfl⟩ | ⟨hpresent, t, ht, rfl⟩)
  · exact .pure ((hif.cast rfl (by simp)).bare rfl (by simp [isAbsent]))
  · have helse := hif.append (.token .kwElse " " " else " " " rfl) (.around (by decide) (by decide)
      (fun _ h => h.breaks.plain) (by rintro _ rfl; decide))
    refine .pure (((helse.next ht rfl).cast rfl ?_).bare rfl (by simp [hpresent]))
    simp [String.append_assoc]

theorem laidOut_doWhile (hx : x.LaidOut Closes) (hy : y.LaidOut Stops) : (node .doWhile m [x, y]).LaidOut Stops := by
  refine laidOut_of fun i => .bind (hy i) fun u hu => .bind (hx i) fun s hs => .pure ?_
  have hdo := (Spaced.token .kwDo "" "do " " " rfl).next hu rfl
  have hwhile := hdo.append ((Spaced.opening (O := (· = kwWhile.word)) .kwWhile "while (" (by decide) rfl).pad " " "")
    (.around (by decide) (by decide) (fun _ h => h.breaks.plain) (by rintro _ rfl; decide))
  have hclose := ((hwhile.enter hs rfl).mark .rparen ")" "" rfl).markAfter (by rintro _ rfl; decide) .semi ";" "" rfl
  refine ((hclose.starts rfl).stops.cast rfl ?_).bare rfl (by simp)
  simp [String.append_assoc]

/-- A word with an expression in parentheses, and a statement. -/
theorem laidOut_ruled (t : TokenKind) (text : String)
    (hform : k.form = [.word t, .word .lparen, .part 0, .word .rparen, .part 1] ∧ k.showsParens = false)
    (hprint : ∀ i, Pretty.node {} k m ([x, y].map laid) i = do return text ++ (← x.layout i) ++ ") " ++ (← y.layout i))
    (ht : (t.isFixed && !t.word.1.isRestricted && text == t.word.2 ++ " " ++ "("))
    (hstarts : t.word.Starts) (hx : x.LaidOut Closes) (hy : y.LaidOut Stops)
    (hregex : ∀ v ∈ y.layoutWords.head?, v.1 ≠ .regex) : (node k m [x, y]).LaidOut Stops := by
  intro i
  rw [layout_node, layoutWords_node, hprint]
  refine .bind (hx i) fun s hs => .bind (hy i) fun u hu => .pure ?_
  have hruled := ((Spaced.opening (O := Starts) t text ht hstarts).headed hs).ruled hu hregex
  exact hruled.bare hform.2 (by simp [-Kind.form, hform.1])

theorem laidOut_finally (hx : x.LaidOut Stops) : (node .finallyClause m [x]).LaidOut Stops := by
  refine laidOut_of fun i => .bind (hx i) fun s hs => .pure ?_
  have hlaid := (Spaced.token .kwFinally "" "finally " " " rfl).next hs rfl
  exact (hlaid.starts rfl).bare rfl (by simp)

theorem laidOut_throw (hx : x.LaidOut Closes) : (node .throwStmt m [x]).LaidOut Stops := by
  refine laidOut_of fun i => .bind (hx i) fun s hs => .pure ?_
  have hlaid := ((Spaced.token .kwThrow "" "throw " " " rfl).next hs rfl).mark .semi ";" "" rfl
  exact (hlaid.starts rfl).stops.bare rfl (by simp)

theorem laidOut_label (hx : x.LaidOut Closes) (hy : y.LaidOut Stops) : (node .label m [x, y]).LaidOut Stops := by
  refine laidOut_of fun i => .bind (hx i) fun s hs => .bind (hy i) fun u hu => .pure ?_
  have hlabel := hs.mark .colon ": " " " rfl
  exact (hlabel.next hu rfl).bare rfl (by simp)

theorem laidOut_return (hx : x = .absent ∨ x.LaidOut Closes) : (node .returnStmt m [x]).LaidOut Stops := by
  refine laidOut_of fun i => .bind (gives_optional hx " " i) ?_
  have hreturn := Spaced.token .kwReturn "" "return" "" rfl
  rintro t (⟨rfl, rfl⟩ | ⟨-, s, hs, rfl⟩)
  · have hlaid := hreturn.markAfter (by rintro _ rfl; decide) .semi ";" "" rfl
    refine .pure (((hlaid.starts rfl).stops.cast rfl ?_).bare rfl (by simp))
    rw [String.append_empty]
  · have hlaid := (hreturn.append (hs.pad " " "") (.behind (by decide) (by decide) (by decide) (by decide))).mark .semi ";" "" rfl
    refine .pure (((hlaid.starts rfl).stops.cast rfl ?_).bare rfl (by simp))
    simp [String.append_assoc]

theorem headerEnd_of_isVarStatement (h : x.isVarStatement) : Pretty.headerEnd x = " " := by
  unfold isVarStatement at h
  split at h
  · rfl
  · cases h

theorem laidOut_for {w : Node} (hx : x = .absent ∨ x.isVarStatement ∧ x.LaidOut (· = semi.word) ∨
      x.isVarStatement = false ∧ Pretty.headerEnd x = "; " ∧ x.LaidOut Closes)
    (hy : y = .absent ∨ y.LaidOut Closes) (hz : z = .absent ∨ z.LaidOut Closes) (hw : w.LaidOut Stops)
    (hregex : ∀ v ∈ w.layoutWords.head?, v.1 ≠ .regex) : (node .forStmt m [x, y, z, w]).LaidOut Stops := by
  have hopen := Spaced.opening (O := Starts) .kwFor "for (" (by decide) (by decide)
  refine laidOut_of fun i => Gives.bind (P := fun t => Spaced Starts (· = semi.word) "" ([kwFor.word] ++ [lparen.word] ++ x.layoutWords ++
    if x.isVarStatement then [] else [semi.word]) ("for (" ++ t ++ Pretty.headerEnd x) " ") ?_ fun t ht => ?_
  · rcases hx with rfl | ⟨hvar, hlaid⟩ | ⟨hother, hend, hlaid⟩
    · have hempty := hopen.append (.token .semi " " " ; " " " rfl) (.before (by decide) (by decide) (by rintro _ rfl; decide))
      exact .pure (hempty.cast (by simp [isVarStatement]) (by simp [Pretty.headerEnd]))
    · rw [headerEnd_of_isVarStatement hvar]
      refine (gives_optional (.inr hlaid) "" i).mono ?_
      rintro t (⟨rfl, -⟩ | ⟨-, s, hs, rfl⟩)
      · cases hvar
      · exact ((hopen.enter hs rfl).pad "" " ").cast (by simp [hvar]) (by simp)
    · rw [hend]
      refine (gives_optional (.inr hlaid) "" i).mono ?_
      rintro t (⟨rfl, -⟩ | ⟨-, s, hs, rfl⟩)
      · exact absurd hend (by decide)
      · exact ((hopen.enter hs rfl).mark .semi "; " " " rfl).cast (by simp [hother]) (by simp)
  refine .bind (gives_optional hy "" i) fun s hs => .bind (gives_optional hz "" i) fun u hu => .bind (hw i) fun v hv => .pure ?_
  have hheader := (ht.part hs .semi "; " (by decide)).part hu .rparen ") " (by decide)
  exact (hheader.ruled hv hregex).bare rfl (by simp)

theorem laidOut_forIn (hx : x.LaidOut Closes) (hname : ∀ w ∈ x.layoutWords.getLast?, w.2 ≠ "get" ∧ w.2 ≠ "set")
    (hy : y.LaidOut Closes) (hz : z.LaidOut Stops) (hregex : ∀ v ∈ z.layoutWords.head?, v.1 ≠ .regex) :
    (node .forIn m [x, y, z]).LaidOut Stops := by
  refine laidOut_of fun i => .bind (hx i) fun s hs => .bind (hy i) fun u hu => .bind (hz i) fun t ht => .pure ?_
  have hitem : Spaced Starts Closes "" ((if x.isVarDecl then [kwVar.word] else []) ++ x.layoutWords)
      (if x.isVarDecl then "var " ++ s else s) "" := by
    split
    · have hvar := (Spaced.token .kwVar "" "var " " " rfl).next hs rfl
      exact hvar.starts rfl
    · exact hs
  have hin := spaced_operator (show "in" ∈ Kind.assignOps ++ Kind.binaryOps by decide) hitem (fun _ w hw => hname w (by
    rwa [getLast?_append_of_ne_nil _ hs.nonempty] at hw)) hu
  have hfor := ((Spaced.opening (O := Starts) .kwFor "for (" (by decide) (by decide)).headed hin).ruled ht hregex
  refine (hfor.cast rfl ?_).bare rfl ?_
  · simp [String.append_assoc]
    rfl
  · simp
    rfl

/-- A word that may have a label behind it. -/
theorem laidOut_jump (t : TokenKind) (alone text : String)
    (hform : k.form = [.word t, .part 0, .word .semi] ∧ k.showsParens = false)
    (hprint : ∀ i, Pretty.node {} k m ([x].map laid) i = if x.isAbsent then .ok alone else do return text ++ (← x.word) ++ ";")
    (ht : t.isFixed && decide t.word.Starts && !(t.word.1.endsOperand || t.word.2 == "get" || t.word.2 == "set") &&
      alone == t.word.2 ++ ";" && text == t.word.2 ++ " ")
    (hx : x = .absent ∨ x.isAbsent = false ∧ x.LaidOut Closes ∧ ∀ i, x.word = x.layout i) : (node k m [x]).LaidOut Stops := by
  intro i
  rw [layout_node, layoutWords_node, hprint]
  simp only [and_eq_true, decide_eq_true_eq, beq_iff_eq, not_eq_true'] at ht
  obtain ⟨⟨⟨⟨hfixed, hstarts⟩, hends⟩, rfl⟩, rfl⟩ := ht
  obtain ⟨hsound, hplain⟩ := sound_of_isFixed hfixed
  have hword : Spaced Starts (· = t.word) "" [t.word] t.word.2 "" :=
    (Spaced.word hsound hplain).mono (fun _ h => h ▸ hstarts) fun _ => id
  rcases hx with rfl | ⟨hpresent, hx, hlabel⟩
  · have hlaid := hword.markAfter (fun _ h => h ▸ hplain) .semi ";" "" rfl
    exact .pure (hlaid.stops.bare hform.2 (by simp [-Kind.form, hform.1]))
  · rw [hpresent, if_neg Bool.false_ne_true, hlabel i]
    refine .bind (hx i) fun s hs => .pure ?_
    have hlaid := (hword.append (hs.pad " " "") (.behind hends (by decide) (by decide) (by simp))).mark .semi ";" "" rfl
    refine (hlaid.stops.cast rfl ?_).bare hform.2 (by simp [-Kind.form, hform.1])
    simp [String.append_assoc]

theorem laidOut_debugger (hs : s = "debugger") : (node (.debugger s) m []).LaidOut Stops := by
  intro i
  rw [layout_node, layoutWords_node, hs]
  have hlaid := (Spaced.token .kwDebugger "" "debugger" "" rfl).markAfter (by rintro _ rfl; decide) .semi ";" "" rfl
  exact .pure ((hlaid.starts rfl).stops.bare rfl rfl)

theorem laidOut_empty (hs : s = ";") : (node (.emptyStmt s) m []).LaidOut Stops := by
  intro i
  rw [layout_node, layoutWords_node, hs]
  exact .pure (((Spaced.token .semi "" ";" "" rfl).starts rfl).stops.bare rfl rfl)

/-- A clause behind a block. -/
theorem spaced_clause (h : Spaced O Stops "" ws s "") (hregex : ∀ v ∈ x.layoutWords.head?, v.1 ≠ .regex)
    (ht : x = .absent ∧ t = "" ∨ x.isAbsent = false ∧ ∃ u, Spaced Starts Stops "" x.layoutWords u "" ∧ t = " " ++ u) :
    Spaced O Stops "" (ws ++ x.layoutWords) (s ++ t) "" := by
  rcases ht with ⟨rfl, rfl⟩ | ⟨-, u, hu, rfl⟩
  · exact h.cast (by simp) (by simp)
  · have hfirst : Spaced (fun v => v.Starts ∧ v.1 ≠ .regex) Stops "" x.layoutWords u "" :=
      ⟨hu.spells, hu.nonempty, fun v hv => ⟨hu.opens v hv, hregex v hv⟩, hu.closes⟩
    exact (h.append (hfirst.pad " " "") (.around (by decide) (by decide) (fun _ h => h.breaks.plain) fun _ => id)).cast rfl
      (by simp)

theorem laidOut_try (hx : x.LaidOut Stops) (hy : y = .absent ∨ y.LaidOut Stops)
    (hcatch : ∀ v ∈ y.layoutWords.head?, v.1 ≠ .regex) (hz : z = .absent ∨ z.LaidOut Stops)
    (hfinally : ∀ v ∈ z.layoutWords.head?, v.1 ≠ .regex) : (node .tryStmt m [x, y, z]).LaidOut Stops := by
  refine laidOut_of fun i => .bind (hx i) fun s hs => .bind (gives_optional hy " " i) fun t ht => .bind (gives_optional hz " " i) fun u hu => .pure ?_
  have htry := (Spaced.token .kwTry "" "try " " " rfl).next hs rfl
  have hclauses := spaced_clause (spaced_clause htry hcatch ht) hfinally hu
  exact (hclauses.starts rfl).bare rfl (by simp)

/-! ## Clauses -/

theorem layoutWords_bare (hk : k.showsParens = false) (m : Mark) (parts : List Node) :
    (node k m parts).layoutWords = k.form.flatMap (segmentWords Kind.showsParens k parts) := by
  rw [layoutWords_node, hk, Bool.and_false]
  rfl

/-- Statements behind the head of a clause. -/
theorem broken_clause (h : Broken a ws s)
    (ht : Spaced Starts Stops (Pretty.indent i) (joined none (xs.map layoutWords)) t "") :
    Broken a (ws ++ joined none (xs.map layoutWords)) (s ++ (t ++ "\n")) := by
  have hbody : Spaced Starts Stops (Pretty.indent i) (joined none (xs.map layoutWords)) (t ++ "\n") "\n" := by
    simpa using ht.pad "" "\n"
  exact h.append (Pretty.isGap_indent i) (.of_spaced hbody fun _ h => h.breaks)

theorem broken_case (hx : x.LaidOut Closes) (hxs : ∀ y ∈ xs, y.LaidOut Stops) (i : Nat) :
    Gives ((node .caseClause m (x :: xs)).layout i) (Broken "" (node .caseClause m (x :: xs)).layoutWords) := by
  rw [layout_node, layoutWords_bare rfl]
  have hbody := gives_statements? hxs (i + 2)
  rw [← map_value_laid] at hbody
  refine .bind (hx i) fun s hs => .bind hbody fun t ht => .pure ?_
  have hcase := ((Spaced.token .kwCase "" "case " " " rfl).next hs rfl).mark .colon ":\n" "\n" rfl
  have hhead : Broken "" ([kwCase.word] ++ x.layoutWords ++ [colon.word]) ("case " ++ s ++ ":\n") :=
    .of_spaced (hcase.starts rfl) fun _ h => h ▸ by simp [Breaks]
  rcases ht with ⟨rfl, rfl⟩ | ht
  · simpa [joined] using hhead
  · have hne : t.isEmpty = false := by simpa using ht.text_ne
    simpa [hne] using broken_clause hhead ht

theorem broken_default (hxs : ∀ y ∈ xs, y.LaidOut Stops) (i : Nat) :
    Gives ((node .defaultClause m xs).layout i) (Broken (Pretty.indent i) (node .defaultClause m xs).layoutWords) := by
  rw [layout_node, layoutWords_bare rfl]
  have hbody := gives_statements? hxs (i + 2)
  rw [← map_value_laid] at hbody
  refine .bind hbody fun t ht => .pure ?_
  have hdefault := (Spaced.token .kwDefault "" "default" "" rfl).markAfter (by rintro _ rfl; decide) .colon ":\n" "\n" rfl
  have hhead : Broken "" ([kwDefault.word] ++ [colon.word]) "default:\n" :=
    .of_spaced (hdefault.starts rfl) fun _ h => h ▸ by simp [Breaks]
  rcases ht with ⟨rfl, rfl⟩ | ht
  · simpa [joined] using hhead.pad (c := Pretty.indent i) (d := "\n") (by decide)
  · have hclause := (broken_clause hhead ht).pad (c := Pretty.indent i) (d := "") (by decide)
    simpa [String.append_assoc] using hclause

/-- Clauses one after the other. -/
theorem broken_clauses {ts : List String} (h : Broken a ws s)
    (hts : Forall₂ (fun x t => Broken (Pretty.indent i) (layoutWords x) t) xs ts) :
    Broken a (ws ++ joined none (xs.map layoutWords)) (s ++ String.join ts) := by
  induction hts generalizing ws s with
  | nil => simpa [joined] using h
  | cons first rest ih =>
    have hnext := ih (h.append (Pretty.isGap_indent i) first)
    simpa [joined_none, String.join_cons, String.append_assoc] using hnext

/-- The clauses of a `switch`. -/
theorem gives_cases (hx : ∀ c ∈ x.items, ∀ i, Gives (c.layout i) (Broken "" c.layoutWords)) (i : Nat) :
    Gives (Pretty.cases i x.laid) fun t => ∃ ts, Forall₂
      (fun x t => Broken (Pretty.indent i) (layoutWords x) t) x.items ts ∧ t = String.join ts := by
  unfold Pretty.cases
  split
  · nofun
  · have hclause : ∀ c ∈ x.items, Gives (do
        expectCase c
        return Pretty.indent i ++ (← c.layout i)) (Broken (Pretty.indent i) c.layoutWords) := fun c hc =>
      .step fun _ _ => .bind (hx c hc i) fun t ht =>
        .pure (by simpa using ht.pad (c := Pretty.indent i) (d := "") (by decide))
    have hitems : x.laid.items = x.items.map fun c => (c, c.layout) := rfl
    rw [hitems, mapM_map]
    exact .bind (.mapM hclause) fun ts hts => .pure ⟨ts, hts, rfl⟩

theorem laidOut_switch (hx : x.LaidOut Closes) (hy : ∀ c ∈ y.items, ∀ i, Gives (c.layout i) (Broken "" c.layoutWords))
    (hz : z = .absent ∨ ∀ i, Gives (z.layout i) (Broken (Pretty.indent i) z.layoutWords)) :
    (node .switchStmt m [x, y, z]).LaidOut Stops := by
  refine laidOut_of fun i => .bind (hx i) fun s hs => .bind (gives_cases hy (i + 2)) ?_
  rintro t ⟨ts, hts, rfl⟩
  have hopen := (Spaced.opening (O := Starts) .kwSwitch "switch (" (by decide) (by decide)).headed hs
  have hbrace := hopen.append (.token .lbrace "" "\x7b\n" "\n" rfl) (.before (by decide) (by decide) (by rintro _ rfl; decide))
  have hhead : Broken "" ([kwSwitch.word] ++ [lparen.word] ++ x.layoutWords ++ [rparen.word] ++ [lbrace.word])
      ("switch (" ++ s ++ ") \x7b\n") :=
    .of_spaced (hbrace.cast rfl (by simp [String.append_assoc])) fun _ h => h ▸ by simp [Breaks]
  have hclauses := broken_clauses hhead hts
  by_cases habsent : z.isAbsent
  · obtain rfl := eq_absent habsent
    have hclose := hclauses.close (show isGap (Pretty.indent i) = true by simp)
    refine .pure (((hclose.mono (fun _ => id) fun _ => .inr).cast rfl ?_).bare rfl (by simp))
    simp
  · have hlast := of_present hz habsent (i + 2)
    change Gives (if z.isAbsent then _ else _) _
    rw [if_neg habsent]
    refine .step fun _ _ => .bind hlast fun u hu => .pure ?_
    have hclose := (hclauses.append (by simp) hu).close (show isGap (Pretty.indent i) = true by simp)
    exact (hclose.mono (fun _ => id) fun _ => .inr).bare rfl (by simp)

end Node

end JsMinify
