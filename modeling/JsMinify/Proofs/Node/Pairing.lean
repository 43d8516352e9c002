import JsMinify.Proofs.Node.Pairs
import JsMinify.Proofs.Parser.Shapes

/-!
# The `else` branches of printed programs

Reading the printed text of a statement leaves its `openIfs` open (`stated_node`). By induction over the tree
every part is read as its place says (`Formed.reads`), and so each `else` of a printed program belongs to the
`if` that `Node.partner?` names. `else_pairs_iff` says when this is the `if` that it was written for.
-/

namespace JsMinify

open List Spell Node Spelling

variable {P : ElsePair → Prop} {n : Node} {s t : Spelling} {k : Kind} {i : Nat} {path : Path} {m : Mark} {parts : List Node}
  {q : Path}

theorem Stated.optional_clause (hs : Stated P path s []) (h : n = .absent ∨ Clause P (path ++ [i]) n.spell) :
    Stated P path (s ++ Spell.optional .empty i (asPart algebra n)) [] := by
  unfold Spell.optional
  split
  · intro st hst
    rw [Scan.read_append]
    exact hs st hst
  · next ha => exact hs.clause (of_present h ha).under

theorem Spelling.openIf_append_right (h : t.openIf) : (s ++ t).openIf := by
  change (s.openIf || t.openIf) = true
  rw [h, Bool.or_true]

theorem Spelling.openIf_append_left (h : s.openIf) : (s ++ t).openIf := by
  change (s.openIf || t.openIf) = true
  rw [h, Bool.true_or]

theorem Spelling.openIf_afterWord {word : Spelling} (h : s.openIf) : (afterWord word s).openIf := by
  unfold afterWord
  split
  · exact openIf_append_right h
  · exact openIf_append_right h

/-- What is left open was noted on the way up. -/
theorem openIf_of_openIfs (n : Node) (h : n.openIfs ≠ []) : n.spell.openIf := by
  fun_induction openIfs n with
  | case1 m s ih =>
    have hs : s.spell.openIf := ih (by simpa using h)
    have hpresent : s.isAbsent = false := by
      cases s with
      | absent => simp [openIfs] at h
      | _ => rfl
    rw [spell_node]
    simp only [Spell.node, map_cons, map_nil, present, asPart_node, hpresent]
    exact hs
  | case2 =>
    rw [spell_node]
    rfl
  | case3 m test yes no hno ihno ihyes =>
    have habsent : no.isAbsent = false := eq_false_of_ne_true fun ha => hno (eq_absent ha)
    rw [spell_node, node_ifElse habsent]
    by_cases hopen : no.openIfs = []
    · have hyes : yes.isSingleBlock = false ∧ yes.openIfs ≠ [] := by
        rw [hopen] at h
        cases hs : yes.isSingleBlock with
        | true => simp [hs] at h
        | false =>
          refine ⟨rfl, fun hnone => ?_⟩
          simp [hs, hnone] at h
      rw [hyes.1]
      exact openIf_append_left (openIf_append_right (ihyes hyes.2))
    · exact openIf_append_right (openIf_afterWord (ihno hopen))
  | case4 m test body ih | case5 m test body ih | case6 m test body ih | case7 m item object body ih
  | case8 m init test count body ih =>
    have hbody : body.spell.openIf := ih (by simpa using h)
    rw [spell_node]
    exact openIf_append_right hbody
  | case9 => exact absurd rfl h

theorem Spelling.startsWith_brace (h : s.pieces.head?.any fun p => p.text.toList.head?.any (· != '\x7b')) :
    s.startsWith ['\x7b'] = false := by
  obtain ⟨p, hp, hc⟩ := (Option.any_eq_true _ _).1 h
  obtain ⟨c, hc, hne⟩ := (Option.any_eq_true _ _).1 hc
  obtain ⟨ps, hps⟩ := head?_eq_some_iff.1 hp
  obtain ⟨w, hw⟩ := head?_eq_some_iff.1 hc
  have htext : s.printed.text.toList = c :: (w ++ (Piece.textOf ps).toList) := by
    rw [printed, hps, Piece.textOf, String.toList_append, hw, cons_append]
  unfold startsWith Printed.startsWith
  rw [htext]
  simpa using hne

/-- A statement that leaves an `if` open begins with a word. -/
theorem not_startsWith_of_openIfs (n : Node) (hn : Formed (.one .statement) n) (h : n.openIfs ≠ []) :
    n.spell.startsWith ['\x7b'] = false := by
  fun_induction openIfs n with
  | case1 m s ih =>
    have hs : Formed (.one .statement) s := hn.part 0 rfl
    rw [spell_node]
    simp only [Spell.node, map_cons, map_nil, present, asPart_node, hs.isAbsent_eq_false]
    unfold startsWith
    simp only [Bool.false_eq_true, if_false, printed_under]
    exact ih hs (by simpa using h)
  | case3 m test yes no hno ihno ihyes =>
    have habsent : no.isAbsent = false := eq_false_of_ne_true fun ha => hno (eq_absent ha)
    rw [spell_node, node_ifElse habsent]
    exact startsWith_brace rfl
  | case2 | case4 | case5 | case7 | case8 =>
    rw [spell_node]
    exact startsWith_brace rfl
  | case6 m name body ih =>
    obtain ⟨text, mark, rfl, hwhole⟩ := Formed.name rfl (hn.part 0 rfl) (Formed.isAbsent_eq_false (hn.part 0 rfl))
    obtain ⟨c, w, hw, hc⟩ := Lexeme.isNameStart_of_isWhole hwhole rfl
    rw [spell_node]
    refine startsWith_brace (?_ : text.toList.head?.any (· != '\x7b'))
    rw [hw, head?_cons, Option.any_some, bne_iff_ne]
    rintro rfl
    cases hc
  | case9 => exact absurd rfl h

theorem stated_branch (h : Stated P path (n.spell.under i) (n.openIfs.map (i :: ·))) :
    Stated P path (n.spell.under i).branch [] := by
  unfold branch
  split
  · exact .braced (.of_stated h)
  · next hopen =>
    have hnone : n.openIfs = [] := by
      by_contra hne
      exact hopen (openIf_of_openIfs n hne)
    rw [hnone] at h
    exact h

theorem stated_bracedOnce (hn : Formed (.one .block) n) (h : Stated P (path ++ [i]) n.spell n.openIfs) :
    Stated P path (n.spell.under i).bracedOnce [] := by
  unfold bracedOnce
  split
  · next hbrace =>
    have hnone : n.openIfs = [] := by
      by_contra hne
      have hnot := not_startsWith_of_openIfs n (hn.mono rfl) hne
      unfold startsWith at hbrace hnot
      rw [printed_under, hnot] at hbrace
      cases hbrace
    have hunder := h.under
    rw [hnone] at hunder
    exact hunder
  · exact .braced (.of_stated h.under)

/-- A jump, with the name that it leads to if there is one. -/
theorem stated_jump {k : TokenKind} (hk : k.isQuiet) (text : String) (hn : Formed (.optional .name) n) :
    Stated P path (if n.isAbsent then .tok k text ++ .tok .semi ";"
      else .tok k text ++ .gap ++ (jumpTarget n).under 0 ++ .tok .semi ";") [] := by
  split
  · exact Stated.semi (.tok hk text) ";"
  · next habsent =>
    obtain ⟨name, mark, rfl, -⟩ := Formed.name rfl hn (by simpa using habsent)
    exact Stated.semi (((Quiet.tok hk text).append (.raw " ")).append (Quiet.under (.tok rfl name))) ";"

theorem stated_if (h : PartsRead P .ifStmt parts path)
    (hown : ∀ q, partner? (.node .ifStmt m parts) = some q → P (path, some (path ++ q))) :
    Stated P path (Spell.node .ifStmt m (parts.map (asPart algebra))) (openIfs (.node .ifStmt m parts)) := by
  obtain ⟨test, yes, no, rfl, htest', hyes', hno'⟩ := h.three rfl
  have htest : Quiet P path (Spell.optional .empty 0 (asPart algebra test)) :=
    composes_quiet.optional .empty (.inr htest')
  have hyes : Stated P path (yes.spell.under 1) (yes.openIfs.map (1 :: ·)) := .under hyes'
  by_cases habsent : no.isAbsent
  · cases no with
    | absent => exact Stated.ifOpen htest hyes
    | _ => cases habsent
  · have hno : Stated P (path ++ [2]) no.spell no.openIfs := of_present hno' habsent
    have hbranch : Stated P path (if yes.isSingleBlock then (yes.spell.under 1).branch else yes.spell.under 1)
        (if yes.isSingleBlock then [] else yes.openIfs.map (1 :: ·)) := by
      split
      · exact stated_branch hyes
      · exact hyes
    rw [node_ifElse (by simpa using habsent)]
    cases no with
    | absent => exact absurd rfl habsent
    | _ => exact Stated.ifElse htest hbranch hno.under (hown _ rfl)

theorem stated_node (hk : k.isStatement) (h : PartsRead P k parts path)
    (hown : ∀ q, partner? (.node k m parts) = some q → P (path, some (path ++ q))) :
    Stated P path (Spell.node k m (parts.map (asPart algebra))) (openIfs (.node k m parts)) := by
  have hw := h.worded
  have hc := h.mono Place.Reads.composed
  have c := composes_quiet (P := P)
  cases k with
  | block =>
    have hlist : Listed P path (.concat (numbered 0 (parts.map spell))) := c.listed.concat (c.listed.parts hc.each)
    unfold Spell.node
    simp only
    rw [h.present_eq rfl]
    rcases parts with _ | ⟨a, _ | ⟨b, rest⟩⟩
    · exact Stated.braced hlist
    · exact Stated.under (h.each 0 a rfl)
    · exact Stated.braced hlist
  | varStatement =>
    have hdecls := c.commas (c.parts (w := path) h.each)
    rw [← h.present_eq rfl] at hdecls
    exact Stated.semi (c.led rfl hdecls) ";"
  | emptyStmt s =>
    obtain rfl : s = ";" := beq_iff_eq.1 hw
    exact Stated.semi .empty ";"
  | exprStmt =>
    obtain ⟨a, rfl, ha⟩ := h.one rfl
    exact Stated.semi (.under ha) ";"
  | ifStmt => exact stated_if h hown
  | doWhile =>
    obtain ⟨test, body, rfl, htest, hbody⟩ := h.two rfl
    exact Stated.doLoop (.under hbody) (.under htest)
  | whileStmt =>
    obtain ⟨test, body, rfl, htest, hbody⟩ := h.two rfl
    exact Stated.whileLoop (.under htest) (.under hbody)
  | forStmt =>
    obtain ⟨init, test, count, body, rfl⟩ := Shape.parts_four h.count
    have hheader := c.forHeader (h.each 0 init rfl) (h.each 1 test rfl) (h.each 2 count rfl)
    exact Stated.head (.append (.tok rfl "for") (.inParens hheader)) (.under (h.each 3 body rfl))
  | forIn =>
    obtain ⟨item, object, body, rfl, hitem, hobject, hbody⟩ := h.three rfl
    exact Stated.head (.append (.tok rfl "for") (.inParens (c.forInHeader hitem hobject))) (.under hbody)
  | continueStmt =>
    obtain ⟨name, rfl⟩ := Shape.parts_one h.count
    exact stated_jump rfl "continue" (h.parted 0 name rfl)
  | breakStmt =>
    obtain ⟨name, rfl⟩ := Shape.parts_one h.count
    exact stated_jump rfl "break" (h.parted 0 name rfl)
  | returnStmt =>
    obtain ⟨a, rfl, ha'⟩ := h.one rfl
    unfold Spell.node
    simp only
    split
    · exact Stated.semi (.tok rfl "return") ";"
    · next ha => exact Stated.semi (.afterWord rfl "return" (.under (of_present ha' ha))) ";"
  | withStmt =>
    obtain ⟨object, body, rfl, hobject, hbody⟩ := h.two rfl
    exact Stated.head (.append (.tok rfl "with") (.inParens (.under hobject))) (.under hbody)
  | switchStmt =>
    obtain ⟨subject, clauses, default, rfl, hsubject, ⟨cs, rfl, hclauses⟩, hdefault⟩ := h.three rfl
    have hhead := (Quiet.tok (k := .kwSwitch) rfl "switch").append (Quiet.inParens (.under hsubject))
    exact Stated.braces hhead (.append (c.listed.concat (c.listed.items hclauses)) (c.listed.optional c.listed.empty hdefault))
  | label =>
    obtain ⟨name, body, rfl, hname, hbody⟩ := h.two rfl
    exact Stated.head (.append (.under hname) (.tok rfl (by decide) ":")) (.under hbody)
  | throwStmt =>
    obtain ⟨a, rfl, ha⟩ := h.one rfl
    exact Stated.semi (c.led rfl (.under ha)) ";"
  | tryStmt =>
    obtain ⟨block, handler, final, rfl, hblock', hhandler, hfinal⟩ := h.three rfl
    have hblock := stated_bracedOnce (h.parted 0 block rfl) hblock'
    have htry := Stated.head (.tok (k := .kwTry) rfl (by decide) "try") hblock
    exact (htry.optional_clause hhandler).optional_clause hfinal
  | debugger s =>
    obtain rfl : s = "debugger" := beq_iff_eq.1 hw
    exact Stated.semi (.tok rfl "debugger") ";"
  | function form =>
    cases form with
    | expression => cases hk
    | declared =>
      obtain ⟨name, param, body, rfl, hname', ⟨params, rfl, hparams⟩, -⟩ := h.three rfl
      obtain ⟨stmts, rfl, hstmts⟩ := hc.each 2 body rfl
      have hname := (Quiet.tok (k := .kwFunction) rfl "function").append (c.append c.gap (.under hname'))
      exact Stated.braces (hname.append (c.inParens (c.commas (c.items hparams)))) (c.listed.concat (c.listed.items hstmts))
  | _ => cases hk

theorem listed_node (hk : k = .program ∨ k = .caseClause ∨ k = .defaultClause) (h : PartsRead P k parts path) :
    Listed P path (Spell.node k m (parts.map (asPart algebra))) := by
  have hc := h.mono Place.Reads.composed
  have c := composes_quiet (P := P)
  rcases hk with rfl | rfl | rfl
  · rw [Spell.node, h.present_eq rfl]
    exact c.listed.concat (c.listed.parts hc.each)
  · obtain ⟨test, stmts, rfl⟩ := Shape.parts_cons h.count
    have hcase : Quiet P path (.tok .kwCase "case" ++ .gap ++ test.spell.under 0) := c.led rfl (.under (h.each 0 test rfl))
    have hhead := hcase.append (.tok (k := .colon) rfl ":")
    exact .append (.of_quiet hhead) (c.listed.concat (c.listed.rest test fun j x hx => hc.each (j + 1) x hx))
  · rw [Spell.node, map_map]
    exact .append (.of_quiet ((Quiet.tok rfl _).append (.tok rfl _))) (c.listed.concat (c.listed.parts hc.each))

theorem clause_node (hk : k = .catchClause ∨ k = .finallyClause) (h : PartsRead P k parts path) :
    Clause P path (Spell.node k m (parts.map (asPart algebra))) := by
  rcases hk with rfl | rfl
  · obtain ⟨name, block, rfl, hname, hblock⟩ := h.two rfl
    exact Clause.head (.append (.tok rfl "catch") (.inParens (.under hname))) (stated_bracedOnce (h.parted 1 block rfl) hblock)
  · obtain ⟨block, rfl, hblock⟩ := h.one rfl
    exact Clause.head (.tok rfl (by decide) "finally") (stated_bracedOnce (h.parted 0 block rfl) hblock)

/-- A node is read as its place says if its parts are. -/
theorem Place.reads_node {p : Place} (hk : p.takes k) (h : PartsRead P k parts path)
    (hown : ∀ q, partner? (.node k m parts) = some q → P (path, some (path ++ q))) : p.Reads P path (.node k m parts) := by
  cases p with
  | statement =>
    unfold Place.Reads
    rw [spell_node]
    exact stated_node hk h hown
  | block =>
    obtain rfl : k = .block := by cases k <;> first | rfl | cases hk
    unfold Place.Reads
    rw [spell_node]
    exact stated_node rfl h hown
  | program | caseClause | defaultClause =>
    have hlisted : k = .program ∨ k = .caseClause ∨ k = .defaultClause := by
      cases k <;> first | (simp; done) | cases hk
    unfold Place.Reads
    rw [spell_node]
    exact listed_node hlisted h
  | catchClause | finallyClause =>
    have hclause : k = .catchClause ∨ k = .finallyClause := by
      cases k <;> first | (simp; done) | cases hk
    unfold Place.Reads
    rw [spell_node]
    exact clause_node hclause h
  | _ =>
    have hquiet : k.isQuiet := by
      cases k <;> first | rfl | exact hk | cases hk
    unfold Place.Reads
    rw [spell_node]
    exact quiet_node hquiet h

/-- Each `else` of a printed text: the node it was printed for, and the one whose `if` it belongs to. -/
def Spelling.elsePairs (s : Spelling) : List ElsePair := (({} : Scan).read [] s).pairs

/-- The `else` of an `if` belongs to the node that `Node.partner?` gives. -/
theorem eq_of_mem_elsePairs {tree : Node} (h : Formed (.one .program) tree) {o : Option Path}
    (he : (path, o) ∈ tree.spell.elsePairs) (hat : tree.at? path = some n) (hq : n.partner? = some q) :
    o = some (path ++ q) := by
  let P (e : ElsePair) : Prop := ∃ n q, tree.at? e.1 = some n ∧ n.partner? = some q ∧ e.2 = some (e.1 ++ q)
  have hread : Listed P [] tree.spell := by
    refine h.holds (R := Place.Reads P) (fun hat hk hparts => ?_) tree.at?_nil
    exact Place.reads_node hk hparts fun q hq => ⟨_, q, hat, hq, rfl⟩
  obtain ⟨opened, hchange⟩ := hread {} (by simp)
  obtain ⟨n', q', hat', hq', ho⟩ := (hchange.pairs _ he).resolve_left (by simp)
  cases hat.symm.trans hat'
  cases hq.symm.trans hq'
  exact ho

/-- In a program that is printed in its compact form, the `else` of an `if` belongs to that `if` exactly if its
first branch is a block of one statement, whose braces are kept where they are needed, or leaves no `if` open. -/
theorem else_pairs_iff {text out : String} {tree : Node} {p : Parser} (h : parse text = (.ok tree, p))
    (hout : tree.compact = .ok out) :
    out = Piece.textOf tree.spell.pieces ∧
      ∀ path m test yes no, tree.at? path = some (.node .ifStmt m [test, yes, no]) → no ≠ .absent →
        ∃ owner, (∀ o, (path, o) ∈ tree.spell.elsePairs ↔ o = some owner) ∧
          (owner = path ↔ yes.isSingleBlock = true ∨ yes.openIfs = []) := by
  refine ⟨compact_eq hout, fun path m test yes no hat hno => ?_⟩
  have hformed := parse_formed h
  have hpartner : partner? (.node .ifStmt m [test, yes, no]) =
      some (((if yes.isSingleBlock then [] else yes.openIfs.map (1 :: ·)) ++ [[]]).headD []) := by
    cases no with
    | absent => exact absurd rfl hno
    | _ => rfl
  refine ⟨path ++ ((if yes.isSingleBlock then [] else yes.openIfs.map (1 :: ·)) ++ [[]]).headD [], fun o => ⟨?_, ?_⟩, ?_⟩
  · exact fun ho => eq_of_mem_elsePairs hformed ho hat hpartner
  · rintro rfl
    have hno : no.isAbsent = false := by
      cases no <;> first | rfl | exact absurd rfl hno
    obtain ⟨piece, hpiece, hkind, rfl⟩ := hasElse_of_at? hformed hno hat 0
    obtain ⟨o, ho⟩ := Scan.mem_pairs (p := piece.below []) hkind (mem_map_of_mem hpiece) {}
    exact eq_of_mem_elsePairs hformed ho hat hpartner ▸ ho
  · rw [List.append_right_eq_self]
    cases yes.isSingleBlock with
    | true => simp
    | false => cases yes.openIfs <;> simp

theorem exists_of_partner? (h : n.partner? = some q) : ∃ m test yes no, n = .node .ifStmt m [test, yes, no] ∧ no ≠ .absent ∧
      q = ((if yes.isSingleBlock then [] else yes.openIfs.map (1 :: ·)) ++ [[]]).headD [] := by
  unfold partner? at h
  split at h
  · cases h
  · next m test yes no hno =>
    exact ⟨m, test, yes, no, rfl, hno, (Option.some.inj h).symm⟩
  · cases h

/-- The braces around the body of the loop are gone, and with them what kept the `else` from the inner `if`. -/
theorem else_strays_into_loop : ∃ tree p, parse "if(a) while(b) \x7bif(c) d;\x7d else e;" = (.ok tree, p) ∧
      tree.compact = .ok "if(a)while(b)if(c)d;else e;" ∧
      (∃ m test yes no, tree.at? [0] = some (.node .ifStmt m [test, yes, no]) ∧ no ≠ .absent) ∧
      ∃ owner, (∀ o, ([0], o) ∈ tree.spell.elsePairs ↔ o = some owner) ∧ owner ≠ [0] := by
  obtain ⟨tree, p, hparse, htest⟩ := exists_of_test "if(a) while(b) \x7bif(c) d;\x7d else e;"
    (fun tree => tree.compact.toOption == some "if(a)while(b)if(c)d;else e;" &&
      (tree.at? [0]).bind partner? == some [1, 1, 0]) (by decide +kernel)
  simp only [Bool.and_eq_true, beq_iff_eq] at htest
  obtain ⟨n, hn, hq⟩ := Option.bind_eq_some_iff.1 htest.2
  obtain ⟨m, test, yes, no, rfl, hno, hq⟩ := exists_of_partner? hq
  have hout := ok_of_toOption htest.1
  obtain ⟨owner, howner, hown⟩ := (else_pairs_iff hparse hout).2 [0] m test yes no hn hno
  refine ⟨tree, p, hparse, hout, ⟨m, test, yes, no, hn, hno⟩, owner, howner, fun he => ?_⟩
  rcases hown.1 he with hsingle | hopen
  · simp [hsingle] at hq
  · simp [hopen] at hq

end JsMinify
