import JsMinify.Proofs.Node.LaidStatements
import JsMinify.Proofs.Parser.Restore

/-!
# Reading the laid out form back

The laid out form of a program consists of the words of its tree (`splitsInto_pretty`), unless two of them meet that have to
stay apart, or a semicolon is left out (`Node.runsOn`). If the tree is also the one that its words stand for
(`Node.isRestorable`), then it is read back from its laid out form (`pretty_restored`).
-/

namespace JsMinify

open TokenKind Node Word Option Bool

namespace Node

def partBegins (parts : List Node) (i : Nat) (p : Word → Bool) : Bool := (parts.getD i .absent).layoutWords.head?.any p

def partEnds (parts : List Node) (i : Nat) (p : Word → Bool) : Bool := (parts.getD i .absent).layoutWords.getLast?.any p

/-- The laid out form of the node is not read as its words: two of them meet and are read as something else, or one of them
is left out. An accessor is read as one only before a name. -/
def runsOn : Node → Bool
  | .node (.unary op false) _ parts => !isWordOperator op && partBegins parts 0 (Word.fuses op)
  | .node .dot _ parts => partEnds parts 0 takesPoint
  | .node (.binary op) _ parts => (op == "in" || op == "instanceof") && partEnds parts 0 isAccessor
  | .node .getter _ parts | .node .setter _ parts => !partBegins parts 0 (·.1 == .identifier)
  | .node .ifStmt _ parts | .node .whileStmt _ parts | .node .withStmt _ parts => partBegins parts 1 (·.1 == .regex)
  | .node .forStmt _ parts =>
    !(parts.getD 0 .absent).isVarStatement && Pretty.headerEnd (parts.getD 0 .absent) == " " ||
      partBegins parts 3 (·.1 == .regex)
  | .node .forIn _ parts => partEnds parts 0 isAccessor || partBegins parts 2 (·.1 == .regex)
  | _ => false

end Node

/-- The words that the nodes of a kind can end with. -/
def Kind.closing : Kind → Word → Prop
  | .varStatement => (· = semi.word)
  | .block | .emptyStmt _ | .exprStmt | .ifStmt | .doWhile | .whileStmt | .forStmt | .forIn | .continueStmt | .breakStmt
  | .returnStmt | .withStmt | .switchStmt | .label | .throwStmt | .tryStmt | .debugger _ | .function .declared
  | .catchClause | .finallyClause => Stops
  | _ => Closes

/-- The laid out form of a node consists of its words, and ends as nodes of its kind do. -/
def Node.Prints (n : Node) : Prop :=
  match n with
  | .node .program _ _ | .node .plain _ _ | .node (.elision _) _ _ => True
  | .node .caseClause _ _ => ∀ i, Gives (n.layout i) (Broken "" n.layoutWords)
  | .node .defaultClause _ _ => ∀ i, Gives (n.layout i) (Broken (Pretty.indent i) n.layoutWords)
  | .node k _ _ => n.LaidOut k.closing
  | _ => True

/-- What the laid out form of a node in a place is. -/
def Place.Prints (p : Place) (n : Node) : Prop :=
  match p with
  | .program => True
  | .statement | .block | .catchClause | .finallyClause => n.LaidOut Stops
  | .expression | .name | .key | .property | .declaration | .target => n.LaidOut Closes
  | .element => n.isElision = false → n.LaidOut Closes
  | .header => n.isVarStatement = true ∧ n.LaidOut (· = semi.word) ∨ n.isVarStatement = false ∧ n.LaidOut Closes
  | .caseClause => ∀ i, Gives (n.layout i) (Broken "" n.layoutWords)
  | .defaultClause => ∀ i, Gives (n.layout i) (Broken (Pretty.indent i) n.layoutWords)

variable {k : Kind}

theorem Place.prints_of_takes {p : Place} (hk : p.takes k) {m : Mark} {parts : List Node}
    (h : (node k m parts).Prints) : p.Prints (node k m parts) := by
  cases p with
  | program => trivial
  | statement | block =>
    cases k with
    | varStatement => exact h.mono fun _ => .inl
    | function form => cases form <;> first | exact h | cases hk
    | _ => first | exact h | cases hk
  | catchClause | finallyClause | caseClause | defaultClause | name | key | property | declaration =>
    cases k <;> first | exact h | cases hk
  | expression | target =>
    cases k with
    | function form => cases form <;> first | exact h | cases hk
    | _ => first | exact h | cases hk
  | element =>
    intro hhole
    cases k with
    | elision => cases hhole
    | function form => cases form <;> first | exact h | cases hk
    | _ => first | exact h | cases hk
  | header =>
    cases k with
    | varStatement => exact .inl ⟨rfl, h⟩
    | function form => cases form <;> first | exact .inr ⟨rfl, h⟩ | cases hk
    | _ => first | exact .inr ⟨rfl, h⟩ | cases hk

namespace Node

variable {m : Mark} {parts : List Node} {p : Word → Bool} {i : Nat}

theorem not_partBegins (h : partBegins parts i p = false) : ∀ v ∈ (parts.getD i .absent).layoutWords.head?, p v = false := by
  intro v hv
  rw [partBegins, mem_def.1 hv] at h
  exact h

theorem not_partEnds (h : partEnds parts i p = false) : ∀ v ∈ (parts.getD i .absent).layoutWords.getLast?, p v = false := by
  intro v hv
  rw [partEnds, mem_def.1 hv] at h
  exact h

end Node

/-- The first word of a node that begins with a fixed one. -/
theorem head_layoutWords {t : TokenKind} {rest : List Segment} (hk : k.showsParens = false)
    (hform : k.form = .word t :: rest) (m : Mark) (parts : List Node) : (node k m parts).layoutWords.head? = some t.word := by
  rw [layoutWords_bare hk, hform]
  rfl

variable {r : Role} {n : Node}

/-- A block or a clause behind it does not begin with a regular expression. -/
theorem not_regex_of_clause {p : Place} (hr : r.place? = some p)
    (hp : p = .block ∨ p = .catchClause ∨ p = .finallyClause) (h : Formed r n) :
    ∀ v ∈ n.layoutWords.head?, v.1 ≠ .regex := by
  cases h with
  | absent => nofun
  | seq => nofun
  | @node _ q k m parts place takes _ _ _ =>
    cases place.symm.trans hr
    have hk : k = .block ∨ k = .catchClause ∨ k = .finallyClause := by
      rcases hp with rfl | rfl | rfl <;> cases k <;> first | (simp; done) | cases takes
    intro v hv
    rcases hk with rfl | rfl | rfl <;>
    · rw [head_layoutWords rfl rfl] at hv
      cases hv
      decide

/-- A label is laid out as the word that it is. -/
theorem label_cases {x : Node} (h : Formed (.optional .name) x) (hx : x = .absent ∨ x.LaidOut Closes) :
    x = .absent ∨ x.isAbsent = false ∧ x.LaidOut Closes ∧ ∀ i, x.word = x.layout i := by
  cases ha : x.isAbsent with
  | true => exact .inl (eq_absent ha)
  | false =>
    obtain ⟨text, m, rfl, -⟩ := h.name rfl ha
    exact .inr ⟨rfl, hx.resolve_left nofun, fun _ => rfl⟩

theorem headerEnd_cases (x : Node) : x = .absent ∨ Pretty.headerEnd x = "; " ∨ Pretty.headerEnd x = " " := by
  unfold Pretty.headerEnd
  split <;> simp

/-- The parts of a node are as its kind asks for, and laid out as their places say. -/
abbrev PartsPrint (k : Kind) (parts : List Node) (path : Path) : Prop := PartsHold (fun p _ n => p.Prints n) k parts path

variable {path : Path}

theorem prints_items {p : Place} (h : r.Holds (fun p _ n => p.Prints n) path n)
    (hr : r.items? = some p) : ∀ x ∈ n.items, p.Prints x := by
  cases r with
  | list =>
    cases hr
    obtain ⟨ns, rfl, hns⟩ := h
    exact forall_mem_of_getElem? hns
  | optionalList =>
    cases hr
    obtain rfl | ⟨ns, rfl, hns⟩ := h
    · nofun
    · exact forall_mem_of_getElem? hns
  | _ => cases hr

/-- The form of a node consists of its words, if this holds of its parts. -/
theorem prints_node {m : Mark} {parts : List Node} (h : PartsPrint k parts path)
    (hself : (node k m parts).runsOn = false) : (node k m parts).Prints := by
  cases k with
  | plain | program | elision => trivial
  | identifier s | number s | string s | regex s =>
    obtain rfl := Shape.parts_none h.count
    refine laidOut_word _ ?_ ?_ ?_ rfl fun _ => rfl
    · exact isSound_of_isWhole (by simp) h.worded
    · rfl
    · rfl
  | boolean s =>
    obtain rfl := Shape.parts_none h.count
    rcases (by simpa [Kind.worded] using h.worded : s = "true" ∨ s = "false") with rfl | rfl
    · exact laidOut_word (.kwTrue, "true") (by decide) (by decide) (by decide) rfl fun _ => rfl
    · exact laidOut_word (.kwFalse, "false") (by decide) (by decide) (by decide) rfl fun _ => rfl
  | null s =>
    obtain rfl := Shape.parts_none h.count
    exact laidOut_word kwNull.word (by decide) (by decide) (by decide) rfl fun _ => rfl
  | this =>
    obtain rfl := Shape.parts_none h.count
    exact laidOut_word kwThis.word (by decide) (by decide) (by decide) rfl fun _ => rfl
  | emptyStmt s =>
    obtain rfl := Shape.parts_none h.count
    exact laidOut_empty (beq_iff_eq.1 h.worded)
  | debugger s =>
    obtain rfl := Shape.parts_none h.count
    exact laidOut_debugger (beq_iff_eq.1 h.worded)
  | block => exact laidOut_block (forall_mem_of_getElem? h.each) fun x hx => (Formed.of_rest rfl h.parted x hx).isAbsent_eq_false
  | varStatement =>
    exact laidOut_varStatement (forall_mem_of_getElem? h.each) fun x hx => (Formed.of_rest rfl h.parted x hx).isAbsent_eq_false
  | array => exact laidOut_array (forall_mem_of_getElem? h.each)
  | object => exact laidOut_object (forall_mem_of_getElem? h.each)
  | defaultClause => exact broken_default (forall_mem_of_getElem? h.each)
  | varDecl =>
    obtain ⟨x, y, rfl, hx, hy⟩ := h.two rfl
    exact laidOut_varDecl hx hy
  | newExpr =>
    obtain ⟨x, y, rfl, hx, hy⟩ := h.two rfl
    exact laidOut_new hx (prints_items hy rfl)
  | bracket =>
    obtain ⟨x, y, rfl, hx, hy⟩ := h.two rfl
    exact laidOut_bracket hx hy
  | comma =>
    obtain ⟨x, y, rfl, hx, hy⟩ := h.two rfl
    exact laidOut_comma hx hy
  | dot =>
    obtain ⟨x, y, rfl, hx, -⟩ := h.two rfl
    have hname := h.parted 1 y rfl
    obtain ⟨text, m', rfl, -⟩ := hname.name rfl hname.isAbsent_eq_false
    refine laidOut_dot hx (not_partEnds (i := 0) hself) (h.each 1 _ rfl) fun v hv => ?_
    rw [layoutWords_bare rfl] at hv
    cases hv
    rfl
  | binary op =>
    obtain ⟨x, y, rfl, hx, hy⟩ := h.two rfl
    refine laidOut_binary (by simpa [Kind.worded] using h.worded) hx (fun hword w hw => ?_) hy
    have hends : partEnds [x, y] 0 isAccessor = false := by
      have hself : ((op == "in" || op == "instanceof") && partEnds [x, y] 0 isAccessor) = false := hself
      rcases hword with rfl | rfl <;> exact hself
    simpa [isAccessor] using not_partEnds hends w hw
  | conditional =>
    obtain ⟨x, y, z, rfl, hx, hy, hz⟩ := h.three rfl
    exact laidOut_conditional hx hy hz
  | unary op after =>
    obtain ⟨x, rfl, hx⟩ := h.one rfl
    cases after with
    | true => exact laidOut_postfix (by simpa [Kind.worded] using h.worded) hx
    | false =>
      refine laidOut_prefix (by simpa [Kind.worded] using h.worded) hx fun hword => ?_
      have hself : (!isWordOperator op && partBegins [x] 0 (Word.fuses op)) = false := hself
      rw [hword, Bool.not_false, Bool.true_and] at hself
      exact not_partBegins (i := 0) hself
  | assign op =>
    by_cases hcolon : op = ":"
    · subst hcolon
      obtain ⟨x, y, rfl, hx, hy⟩ := h.two rfl
      exact laidOut_property hx hy
    · obtain ⟨x, y, rfl, hx, hy⟩ := h.two (if_neg hcolon)
      exact laidOut_assign (by simpa [Kind.worded, hcolon] using h.worded) hx hy
  | call =>
    obtain ⟨x, xs, rfl⟩ := Shape.parts_cons h.count
    exact laidOut_call (h.each 0 x rfl) (forall_mem_of_getElem? fun i y hy => h.each (i + 1) y hy)
  | caseClause =>
    obtain ⟨x, xs, rfl⟩ := Shape.parts_cons h.count
    exact broken_case (h.each 0 x rfl) (forall_mem_of_getElem? fun i y hy => h.each (i + 1) y hy)
  | function form =>
    cases form with
    | declared =>
      obtain ⟨x, y, z, rfl, hx, hy, hz⟩ := h.three rfl
      exact laidOut_declared hx (prints_items hy rfl) (prints_items hz rfl)
    | expression =>
      obtain ⟨x, y, z, rfl, hx, hy, hz⟩ := h.three rfl
      exact laidOut_function hx (prints_items hy rfl) (prints_items hz rfl)
  | getter =>
    obtain ⟨x, y, rfl, hx, hy⟩ := h.two rfl
    refine laidOut_getter hx (fun v hv => ?_) (prints_items hy rfl)
    have hself : (!partBegins [x, y] 0 (·.1 == .identifier)) = false := hself
    rw [partBegins, List.getD_cons_zero, mem_def.1 hv] at hself
    simpa using hself
  | setter =>
    obtain ⟨x, y, z, rfl, hx, hy, hz⟩ := h.three rfl
    refine laidOut_setter hx (fun v hv => ?_) (prints_items hy rfl) (prints_items hz rfl)
    have hself : (!partBegins [x, y, z] 0 (·.1 == .identifier)) = false := hself
    rw [partBegins, List.getD_cons_zero, mem_def.1 hv] at hself
    simpa using hself
  | exprStmt =>
    obtain ⟨x, rfl, hx⟩ := h.one rfl
    exact laidOut_exprStmt hx
  | throwStmt =>
    obtain ⟨x, rfl, hx⟩ := h.one rfl
    exact laidOut_throw hx
  | returnStmt =>
    obtain ⟨x, rfl, hx⟩ := h.one rfl
    exact laidOut_return hx
  | finallyClause =>
    obtain ⟨x, rfl, hx⟩ := h.one rfl
    exact laidOut_finally hx
  | label =>
    obtain ⟨x, y, rfl, hx, hy⟩ := h.two rfl
    exact laidOut_label hx hy
  | doWhile =>
    obtain ⟨x, y, rfl, hx, hy⟩ := h.two rfl
    exact laidOut_doWhile hx hy
  | whileStmt | withStmt =>
    obtain ⟨x, y, rfl, hx, hy⟩ := h.two rfl
    exact laidOut_ruled _ _ ⟨rfl, rfl⟩ (fun _ => rfl) (by decide) (by decide) hx hy
      fun v hv => by simpa using not_partBegins (i := 1) hself v hv
  | catchClause =>
    obtain ⟨x, y, rfl, hx, hy⟩ := h.two rfl
    exact laidOut_ruled .kwCatch "catch (" ⟨rfl, rfl⟩ (fun _ => rfl) (by decide) (by decide) hx hy
      (not_regex_of_clause rfl (.inl rfl) (h.parted 1 y rfl))
  | ifStmt =>
    obtain ⟨x, y, z, rfl, hx, hy, hz⟩ := h.three rfl
    exact laidOut_if hx (h.parted 0 x rfl).isAbsent_eq_false hy
      (fun v hv => by simpa using not_partBegins (i := 1) hself v hv) hz
  | tryStmt =>
    obtain ⟨x, y, z, rfl, hx, hy, hz⟩ := h.three rfl
    exact laidOut_try hx hy (not_regex_of_clause rfl (.inr (.inl rfl)) (h.parted 1 y rfl))
      hz (not_regex_of_clause rfl (.inr (.inr rfl)) (h.parted 2 z rfl))
  | forStmt =>
    obtain ⟨x, y, z, w, rfl⟩ := Shape.parts_four h.count
    have hself : (!x.isVarStatement && Pretty.headerEnd x == " " || partBegins [x, y, z, w] 3 (·.1 == .regex)) = false := hself
    rw [or_eq_false_iff] at hself
    refine laidOut_for ?_ (h.each 1 y rfl) (h.each 2 z rfl) (h.each 3 w rfl)
      fun v hv => by simpa using not_partBegins (i := 3) hself.2 v hv
    rcases h.each 0 x rfl with rfl | hvar | ⟨hother, hlaid⟩
    · exact .inl rfl
    · exact .inr (.inl hvar)
    · refine (headerEnd_cases x).imp_right fun hend => .inr ⟨hother, hend.resolve_right fun hend => ?_, hlaid⟩
      simp [hother, hend] at hself
  | forIn =>
    obtain ⟨x, y, z, rfl, hx, hy, hz⟩ := h.three rfl
    have hself : (partEnds [x, y, z] 0 isAccessor || partBegins [x, y, z] 2 (·.1 == .regex)) = false := hself
    rw [or_eq_false_iff] at hself
    exact laidOut_forIn hx (fun w hw => by simpa [isAccessor] using not_partEnds (i := 0) hself.1 w hw)
      hy hz fun v hv => by simpa using not_partBegins (i := 2) hself.2 v hv
  | continueStmt | breakStmt =>
    obtain ⟨x, rfl, hx⟩ := h.one rfl
    exact laidOut_jump _ _ _ ⟨rfl, rfl⟩ (fun _ => rfl) (by decide) (label_cases (h.parted 0 x rfl) hx)
  | switchStmt =>
    obtain ⟨x, y, z, rfl, hx, hy, hz⟩ := h.three rfl
    exact laidOut_switch hx (prints_items hy rfl) hz

/-- The forms of all parts of a tree consist of their words, if nothing runs on. -/
theorem Formed.prints (h : Formed r n) (hn : n.every (fun n => !n.runsOn)) : r.Holds (fun p _ n => p.Prints n) [] n := by
  refine h.holds (fun hat takes hparts => ?_) n.at?_nil
  have hself := (every_iff.1 hn _ _ hat).resolve_left nofun
  exact Place.prints_of_takes takes (prints_node hparts (by simpa using hself))

/-- The laid out form of a program is split into its words. -/
theorem splitsInto_pretty {tree : Node} (h : Formed (.one .program) tree) (htree : tree.every (fun n => !n.runsOn))
    {out : String} (hout : tree.pretty {} = .ok out) : SplitsInto out tree.layoutWords := by
  obtain ⟨k, m, parts, rfl, takes, -, -, parted⟩ := h.exists_node
  obtain rfl : k = .program := by cases k <;> first | rfl | cases takes
  rw [every_node, and_eq_true, List.all_eq_true] at htree
  have hformed : ∀ x ∈ parts, Formed (.one .statement) x := Formed.of_rest rfl parted
  have hparts : ∀ x ∈ parts, x.LaidOut Stops := fun x hx => (hformed x hx).prints (htree.2 x hx)
  have hwords : (Node.node .program m parts).layoutWords = joined none (parts.map layoutWords) := by
    rw [layoutWords_bare rfl]
    simp [Kind.form, layoutWords_eq]
  have hprint : (Node.node .program m parts).pretty {} = Pretty.inline 0 "\n" (parts.map layout) := by
    rw [← present_eq fun x hx => (hformed x hx).isAbsent_eq_false]
    exact congrFun (layout_node .program m parts) 0
  rw [hprint] at hout
  obtain ⟨ts, hts, rfl⟩ := gives_inline hparts 0 "\n" out hout
  rw [hwords]
  by_cases hne : parts = []
  · subst hne
    cases hts
    exact Spells.nil.splitsInto (by simp)
  · have hlaid : Spaced Starts Stops "" (joined none (parts.map layoutWords)) ("\n".intercalate ts) "" := by
      refine Spaced.intercalate (fun {ws us s t} h h' => ?_) hts (by simpa using hne)
      have hparting : Parting Stops ("" ++ "\n" ++ "") Starts :=
        (Parting.broken (by decide) (by decide)).mono (fun _ h => h.breaks) fun _ => id
      exact ((h.pad "" "\n").append h' hparting).cast (by simp) (by simp)
    exact hlaid.splitsInto

/-- A program is read back from its laid out form, up to the lines and the parentheses that this does not show, unless a part
of it loses its meaning without them or runs on into the next. -/
theorem pretty_restored {text out : String} {tree : Node} {p : Parser} (h : parse text = (.ok tree, p))
    (hout : tree.pretty {} = .ok out) (hrestorable : tree.every (isRestorable Kind.showsParens) = true)
    (hruns : tree.every (fun n => !n.runsOn) = true) :
    ∃ tree' p', parse out = (.ok tree', p') ∧ tree'.strip Kind.showsParens = tree.strip Kind.showsParens := by
  refine parse_of_words (fun k hk => ?_) h hrestorable (splitsInto_pretty (parse_formed h) hruns hout)
  cases k <;> first | rfl | cases hk

/-- Parentheses around an operand are kept, those around a call are not. -/
theorem pretty_restored_nested : ∃ tree p out tree' p',
      parse "if((a()))b=(c-d)*-e.f;else for(var i=0;i<n;i++)g(/x/)" = (.ok tree, p) ∧ tree.pretty {} = .ok out ∧
        tree.every (isRestorable Kind.showsParens) = true ∧ tree.every (fun n => !n.runsOn) = true ∧
        out = "if (a()) b = (c - d) * -e.f; else for (var i = 0; i < n; i++) g(/x/);" ∧
        parse out = (.ok tree', p') ∧ tree'.strip Kind.showsParens = tree.strip Kind.showsParens := by
  obtain ⟨tree, p, hparse, htest⟩ := exists_of_test "if((a()))b=(c-d)*-e.f;else for(var i=0;i<n;i++)g(/x/)" (fun tree =>
      tree.every (isRestorable Kind.showsParens) && tree.every (fun n => !n.runsOn) &&
        (tree.pretty {}).toOption == some "if (a()) b = (c - d) * -e.f; else for (var i = 0; i < n; i++) g(/x/);")
    (by decide +kernel)
  simp only [Bool.and_eq_true, beq_iff_eq] at htest
  obtain ⟨⟨hrestorable, hruns⟩, hpretty⟩ := htest
  have hout := ok_of_toOption hpretty
  obtain ⟨tree', p', hagain, hstrip⟩ := pretty_restored hparse hout hrestorable hruns
  exact ⟨tree, p, _, tree', p', hparse, hout, hrestorable, hruns, rfl, hagain, hstrip⟩

end JsMinify
