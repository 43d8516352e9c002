import JsMinify.Proofs.Node.Spelling
import Mathlib.Data.List.TakeWhile

/-!
# Which `if` an `else` belongs to

`Scan` reads the tokens of a program one by one and keeps track of what is open. An `else` belongs to the
nearest `if` before it that has none yet. An `if` is out of reach once the bracket around it is closed, or the
`while` of a `do` around it is read; a `while` belongs to a `do` if it comes right after a statement.

Most parts of a program leave what is open alone (`Quiet`); a statement may add to it (`Stated`), and so may
statements in a row (`Listed`). All the while the pairs that are found have a property. This is put together along
the text.
-/

namespace JsMinify

open List

variable {i : Nat} {k : TokenKind}

/-- The piece of a node at the end of a path. -/
def Piece.below (path : Path) (p : Piece) : Piece := { p with owner := path ++ p.owner }

/-- What a later token may refer to. -/
inductive Pending where
  /-- An `if` that has no `else` yet. -/
  | branch (owner : Path)
  /-- A `do` whose `while` is still to come. -/
  | loop
  deriving DecidableEq, Repr

/-- The node that an `else` was printed for, and the one whose `if` it belongs to. -/
abbrev ElsePair := Path × Option Path

/-- What was met so far. -/
structure Scan where
  last : Option TokenKind := none
  /-- What is open inside the bracket that was opened last, the latest first. -/
  here : List Pending := []
  /-- What is open outside of it, bracket by bracket. -/
  outer : List (List Pending) := []
  pairs : List ElsePair := []
  deriving DecidableEq, Repr

namespace Scan

def atEnd (st : Scan) : Bool := st.last == some .semi || st.last == some .rbrace

/-- What is open after the nearest loop is closed. -/
def closeLoop (here : List Pending) : List Pending :=
  match here.dropWhile (· != .loop) with
  | _ :: rest => rest
  | [] => here

def step (st : Scan) (p : Piece) : Scan :=
  match p.kind with
  | none => st
  | some k =>
    let next := { st with last := some k }
    match k with
    | .lparen | .lbrace | .lbracket => { next with here := [], outer := st.here :: st.outer }
    | .rparen | .rbrace | .rbracket =>
      match st.outer with
      | here :: outer => { next with here, outer }
      | [] => next
    | .kwIf => { next with here := .branch p.owner :: st.here }
    | .kwDo => { next with here := .loop :: st.here }
    | .kwWhile => if st.atEnd then { next with here := closeLoop st.here } else next
    | .kwElse =>
      match st.here with
      | .branch owner :: here => { next with here, pairs := st.pairs ++ [(p.owner, some owner)] }
      | _ => { next with pairs := st.pairs ++ [(p.owner, none)] }
    | _ => next

/-- Reads pieces of a node at the end of a path. -/
def read (st : Scan) (path : Path) (s : Spelling) : Scan := (s.pieces.map (Piece.below path)).foldl step st

/-- A statement may begin: no `while` is taken for that of a loop around it. -/
def Ready (st : Scan) : Prop := st.atEnd = true → .loop ∉ st.here

variable (st : Scan) (path : Path) (s t : Spelling)

@[simp] theorem read_append : st.read path (s ++ t) = (st.read path s).read path t := by
  change ((s.pieces ++ t.pieces).map (Piece.below path)).foldl step st = _
  rw [map_append, foldl_append]
  rfl

@[simp] theorem read_under (i : Nat) : st.read path (s.under i) = st.read (path ++ [i]) s := by
  unfold read Spelling.under
  rw [map_map]
  congr 1
  refine map_congr_left fun p _ => ?_
  simp [Piece.below, Piece.under]

@[simp] theorem read_tok (k : TokenKind) (text : String) : st.read path (.tok k text) = st.step ⟨some k, text, path⟩ := by
  simp [read, Spelling.tok, Piece.below]

@[simp] theorem read_raw (text : String) : st.read path (.raw text) = st := rfl

@[simp] theorem read_gap : st.read path .gap = st := rfl

@[simp] theorem read_empty : st.read path .empty = st := rfl

theorem read_afterWord (k : TokenKind) (word : String) :
    st.read path (.afterWord (.tok k word) s) = (st.step ⟨some k, word, path⟩).read path s := by
  unfold Spelling.afterWord
  split <;> simp

end Scan

/-- Pieces that are neither brackets nor open or close anything. -/
def TokenKind.isQuiet : TokenKind → Bool
  | .lparen | .lbrace | .lbracket | .rparen | .rbrace | .rbracket | .kwIf | .kwDo | .kwWhile | .kwElse => false
  | _ => true

theorem Scan.step_quiet (st : Scan) (hk : k.isQuiet) (text : String) (path : Path) :
    st.step ⟨some k, text, path⟩ = { st with last := some k } := by
  unfold step
  cases k <;> first | rfl | cases hk

/-- Every `else` that is read belongs to some `if` or to none. -/
theorem Scan.mem_pairs {p : Piece} (hk : p.kind = some .kwElse) {ps : List Piece} (hp : p ∈ ps) (st : Scan) :
    ∃ o, (p.owner, o) ∈ (ps.foldl step st).pairs := by
  have kept : ∀ (st : Scan) (q : Piece), st.pairs ⊆ (st.step q).pairs := by
    intro st q
    unfold step
    split
    · exact Subset.refl _
    · simp only
      split <;> try exact Subset.refl _
      all_goals split <;> simp
  have keptAll : ∀ (ps : List Piece) (st : Scan), st.pairs ⊆ (ps.foldl step st).pairs := by
    intro ps
    induction ps with
    | nil => exact fun st => Subset.refl _
    | cons q ps ih => exact fun st _ h => ih _ (kept st q h)
  induction ps generalizing st with
  | nil => cases hp
  | cons q ps ih =>
    rcases mem_cons.1 hp with rfl | hp
    · obtain ⟨o, ho⟩ : ∃ o, (p.owner, o) ∈ (st.step p).pairs := by
        unfold step
        rw [hk]
        simp only
        split
        · exact ⟨_, mem_concat_self⟩
        · exact ⟨_, mem_concat_self⟩
      exact ⟨o, keptAll ps _ ho⟩
    · exact ih hp _

/-! ## What reading changes -/

/-- Between two states, things were opened, and pairs with a property found. -/
structure Change (P : ElsePair → Prop) (st st' : Scan) (opened : List Pending) : Prop where
  here : st'.here = opened ++ st.here
  outer : st'.outer = st.outer
  pairs : ∀ e ∈ st'.pairs, e ∈ st.pairs ∨ P e

variable {P : ElsePair → Prop}

namespace Change

variable {st st' st'' : Scan} {opened opened' : List Pending}

theorem refl (st : Scan) : Change P st st [] := ⟨rfl, rfl, fun _ => .inl⟩

theorem trans (h : Change P st st' opened) (h' : Change P st' st'' opened') : Change P st st'' (opened' ++ opened) :=
  ⟨by rw [h'.here, h.here, append_assoc], h'.outer.trans h.outer, fun e he => (h'.pairs e he).elim (h.pairs e) .inr⟩

theorem last (h : Change P st st' opened) (k : Option TokenKind) : Change P st { st' with last := k } opened :=
  ⟨h.here, h.outer, h.pairs⟩

/-- A closing bracket takes back what was opened inside. -/
theorem closed {k' : TokenKind} (hk : k = .lparen ∧ k' = .rparen ∨ k = .lbrace ∧ k' = .rbrace ∨
    k = .lbracket ∧ k' = .rbracket) {text text' : String} {path : Path}
    (h : Change P (st.step ⟨some k, text, path⟩) st' opened) : Change P st (st'.step ⟨some k', text', path⟩) [] := by
  have hopen : st.step ⟨some k, text, path⟩ = ⟨some k, [], st.here :: st.outer, st.pairs⟩ := by
    rcases hk with ⟨rfl, -⟩ | ⟨rfl, -⟩ | ⟨rfl, -⟩ <;> rfl
  rw [hopen] at h
  have hclose : st'.step ⟨some k', text', path⟩ = ⟨some k', st.here, st.outer, st'.pairs⟩ := by
    rcases hk with ⟨-, rfl⟩ | ⟨-, rfl⟩ | ⟨-, rfl⟩ <;> simp [Scan.step, h.outer]
  rw [hclose]
  exact ⟨rfl, rfl, h.pairs⟩

end Change

/-- Reading a part leaves what is open alone. -/
def Quiet (P : ElsePair → Prop) (path : Path) (s : Spelling) : Prop := ∀ st : Scan, Change P st (st.read path s) []

/-- Reading a part, as a statement, leaves some of its `if`s open. -/
def Stated (P : ElsePair → Prop) (path : Path) (s : Spelling) (opened : List Path) : Prop :=
  ∀ st : Scan, st.Ready → Change P st (st.read path s) (opened.map fun p => .branch (path ++ p)) ∧ (st.read path s).atEnd = true

/-- Reading a part, as statements in a row, may leave `if`s open. -/
def Listed (P : ElsePair → Prop) (path : Path) (s : Spelling) : Prop :=
  ∀ st : Scan, .loop ∉ st.here → ∃ opened : List Path, Change P st (st.read path s) (opened.map .branch)

/-- Reading a part leaves what is open alone, and the statement that it begins goes on. -/
def Headed (P : ElsePair → Prop) (path : Path) (s : Spelling) : Prop :=
  ∀ st : Scan, Change P st (st.read path s) [] ∧ (st.read path s).atEnd = false

/-- Reading a part leaves what is open alone, and ends a statement that was begun before. -/
def Clause (P : ElsePair → Prop) (path : Path) (s : Spelling) : Prop :=
  ∀ st : Scan, Change P st (st.read path s) [] ∧ (st.read path s).atEnd = true

variable {path : Path} {s t : Spelling} {opened : List Path}

namespace Quiet

theorem congr (hpieces : s.pieces = t.pieces) (h : Quiet P path s) : Quiet P path t := by
  unfold Quiet Scan.read at h ⊢
  rwa [← hpieces]

theorem append (h : Quiet P path s) (h' : Quiet P path t) : Quiet P path (s ++ t) := by
  intro st
  rw [Scan.read_append]
  exact (h st).trans (h' _)

theorem tok (hk : k.isQuiet) (text : String) : Quiet P path (.tok k text) := by
  intro st
  rw [Scan.read_tok, Scan.step_quiet st hk]
  exact (Change.refl st).last _

theorem raw (text : String) : Quiet P path (.raw text) := .refl

theorem empty : Quiet P path .empty := .refl

theorem under (h : Quiet P (path ++ [i]) s) : Quiet P path (s.under i) := by
  intro st
  rw [Scan.read_under]
  exact h st

theorem inParens (h : Quiet P path s) : Quiet P path s.inParens := by
  intro st
  unfold Spelling.inParens
  rw [Scan.read_append, Scan.read_append, Scan.read_tok, Scan.read_tok]
  exact (h _).closed (.inl ⟨rfl, rfl⟩)

theorem inBrackets (h : Quiet P path s) : Quiet P path (.tok .lbracket "[" ++ s ++ .tok .rbracket "]") := by
  intro st
  rw [Scan.read_append, Scan.read_append, Scan.read_tok, Scan.read_tok]
  exact (h _).closed (.inr (.inr ⟨rfl, rfl⟩))

theorem braced (h : Listed P path s) : Quiet P path s.braced := by
  intro st
  unfold Spelling.braced
  rw [Scan.read_append, Scan.read_append, Scan.read_tok, Scan.read_tok]
  obtain ⟨opened, hchange⟩ := h (st.step ⟨some .lbrace, "\x7b", path⟩) (by simp [Scan.step])
  exact hchange.closed (.inr (.inl ⟨rfl, rfl⟩))

theorem afterWord (hk : k.isQuiet) (text : String) (h : Quiet P path s) : Quiet P path (.afterWord (.tok k text) s) := by
  unfold Spelling.afterWord
  split
  · exact (tok hk text).append h
  · exact ((tok hk text).append (.raw " ")).append h

end Quiet

namespace Listed

theorem congr (hpieces : s.pieces = t.pieces) (h : Listed P path s) : Listed P path t := by
  unfold Listed Scan.read at h ⊢
  rwa [← hpieces]

theorem append (h : Listed P path s) (h' : Listed P path t) : Listed P path (s ++ t) := by
  intro st hst
  rw [Scan.read_append]
  obtain ⟨opened, hchange⟩ := h st hst
  have hst' : .loop ∉ (st.read path s).here := by simp [hchange.here, hst]
  obtain ⟨opened', hchange'⟩ := h' _ hst'
  exact ⟨opened' ++ opened, by simpa using hchange.trans hchange'⟩

theorem of_quiet (h : Quiet P path s) : Listed P path s := fun st _ => ⟨[], h st⟩

theorem of_stated (h : Stated P path s opened) : Listed P path s := by
  intro st hst
  obtain ⟨hchange, -⟩ := h st fun _ => hst
  refine ⟨opened.map (path ++ ·), ?_⟩
  rw [map_map]
  exact hchange

theorem under (h : Listed P (path ++ [i]) s) : Listed P path (s.under i) := by
  intro st hst
  rw [Scan.read_under]
  exact h st hst

end Listed

/-! ## Statements -/

theorem Headed.tok (hk : k.isQuiet) (hs : k ≠ .semi) (text : String) : Headed P path (.tok k text) := by
  intro st
  refine ⟨Quiet.tok hk text st, ?_⟩
  rw [Scan.read_tok, Scan.step_quiet st hk]
  have hr : k ≠ .rbrace := by
    rintro rfl
    cases hk
  simp [Scan.atEnd, hs, hr]

theorem Headed.append (h : Quiet P path s) (h' : Headed P path t) : Headed P path (s ++ t) := by
  intro st
  rw [Scan.read_append]
  exact ⟨(h st).trans (h' _).1, (h' _).2⟩

theorem Headed.inParens (h : Quiet P path s) : Headed P path s.inParens := by
  intro st
  refine ⟨h.inParens st, ?_⟩
  unfold Spelling.inParens
  rw [Scan.read_append, Scan.read_tok]
  unfold Scan.step
  simp only
  split <;> rfl

theorem Scan.Ready.of_atEnd {st : Scan} (h : st.atEnd = false) : st.Ready := fun he => by
  rw [h] at he
  cases he

namespace Stated

theorem under (h : Stated P (path ++ [i]) s opened) : Stated P path (s.under i) (opened.map (i :: ·)) := by
  intro st hst
  have hopened : (opened.map (i :: ·)).map (fun p => Pending.branch (path ++ p)) =
      opened.map fun p => .branch (path ++ [i] ++ p) := by
    rw [map_map]
    exact map_congr_left fun p _ => by simp
  rw [Scan.read_under, hopened]
  exact h st hst

theorem head (h : Headed P path s) (h' : Stated P path t opened) : Stated P path (s ++ t) opened := by
  intro st _
  rw [Scan.read_append]
  obtain ⟨hchange, hend⟩ := h st
  obtain ⟨hchange', hend'⟩ := h' _ (.of_atEnd hend)
  exact ⟨by simpa using hchange.trans hchange', hend'⟩

theorem semi (h : Quiet P path s) (text : String) : Stated P path (s ++ .tok .semi text) [] := by
  intro st _
  rw [Scan.read_append, Scan.read_tok, Scan.step_quiet _ rfl]
  exact ⟨(h st).last _, rfl⟩

theorem atEnd_braced (st : Scan) (s : Spelling) : (st.read path s.braced).atEnd := by
  unfold Spelling.braced
  rw [Scan.read_append, Scan.read_tok]
  unfold Scan.step
  simp only
  split <;> rfl

theorem braces (h : Quiet P path s) (h' : Listed P path t) : Stated P path (s ++ t.braced) [] := by
  intro st _
  refine ⟨h.append (.braced h') st, ?_⟩
  rw [Scan.read_append]
  exact atEnd_braced _ _

theorem braced (h : Listed P path s) : Stated P path s.braced [] :=
  fun st _ => ⟨Quiet.braced h st, atEnd_braced _ _⟩

/-- A `while` that begins a statement. -/
theorem whileLoop (h : Quiet P path s) (h' : Stated P path t opened) :
    Stated P path (.tok .kwWhile "while" ++ s.inParens ++ t) opened := by
  intro st hst
  rw [Scan.read_append, Scan.read_append, Scan.read_tok]
  have hword : Change P st (st.step ⟨some .kwWhile, "while", path⟩) [] := by
    unfold Scan.step
    simp only
    split
    · next hend =>
      have hclose : Scan.closeLoop st.here = st.here := by
        have hdrop : st.here.dropWhile (· != .loop) = [] :=
          dropWhile_eq_nil_iff.2 fun x hx => by
            rw [bne_iff_ne]
            rintro rfl
            exact hst hend hx
        rw [Scan.closeLoop, hdrop]
      rw [hclose]
      exact (Change.refl st).last _
    · exact (Change.refl st).last _
  obtain ⟨hparens, hend⟩ := Headed.inParens h (st.step ⟨some .kwWhile, "while", path⟩)
  obtain ⟨hchange, hend'⟩ := h' _ (.of_atEnd hend)
  refine ⟨?_, hend'⟩
  simpa using (hword.trans hparens).trans hchange

/-- A `do` takes the `while` after its body. -/
theorem doLoop (h : Stated P path s opened) (h' : Quiet P path t) :
    Stated P path (.afterWord (.tok .kwDo "do") s ++ .tok .kwWhile "while" ++ t.inParens ++ .tok .semi ";") [] := by
  intro st _
  obtain ⟨hbody, hend⟩ := h (st.step ⟨some .kwDo, "do", path⟩) (.of_atEnd rfl)
  simp only [Scan.read_append, Scan.read_tok, Scan.read_afterWord]
  generalize (st.step ⟨some .kwDo, "do", path⟩).read path s = st₁ at hbody hend
  have hclose : Change P st (st₁.step ⟨some .kwWhile, "while", path⟩) [] := by
    have hhere : Scan.closeLoop st₁.here = st.here := by
      have hdrop : st₁.here.dropWhile (· != .loop) = .loop :: st.here := by
        rw [hbody.here, dropWhile_append_of_pos (by simp)]
        rfl
      rw [Scan.closeLoop, hdrop]
    refine ⟨?_, ?_, ?_⟩
    · simpa [Scan.step, hend] using hhere
    · simpa [Scan.step, hend] using hbody.outer
    · simpa [Scan.step, hend] using hbody.pairs
  rw [Scan.step_quiet _ rfl]
  exact ⟨(hclose.trans (h'.inParens _)).last _, rfl⟩

/-- An `if` without `else` stays open. -/
theorem ifOpen (h : Quiet P path s) (h' : Stated P path t opened) :
    Stated P path (.tok .kwIf "if" ++ s.inParens ++ t) (opened ++ [[]]) := by
  intro st _
  rw [Scan.read_append, Scan.read_append, Scan.read_tok]
  obtain ⟨hparens, hend⟩ := Headed.inParens h (st.step ⟨some .kwIf, "if", path⟩)
  obtain ⟨hchange, hend'⟩ := h' _ (.of_atEnd hend)
  refine ⟨?_, hend'⟩
  have htotal := hparens.trans hchange
  exact ⟨by rw [htotal.here]; simp [Scan.step], htotal.outer, htotal.pairs⟩

/-- The `else` of an `if` belongs to the `if` that was left open last, which may be that `if` itself. -/
theorem ifElse {u : Spelling} {opened' : List Path} (h : Quiet P path s) (h' : Stated P path t opened)
    (h'' : Stated P path u opened') (hpair : P (path, some (path ++ (opened ++ [[]]).headD []))) :
    Stated P path (.tok .kwIf "if" ++ s.inParens ++ t ++ .afterWord (.tok .kwElse "else") u)
      (opened' ++ (opened ++ [[]]).tail) := by
  intro st hst
  rw [Scan.read_append, Scan.read_afterWord]
  obtain ⟨hyes, -⟩ := ifOpen h h' st hst
  generalize st.read path (.tok .kwIf "if" ++ s.inParens ++ t) = st₁ at hyes
  obtain ⟨first, rest, hfirst⟩ : ∃ first rest, opened ++ [[]] = first :: rest :=
    exists_cons_of_ne_nil (by simp)
  rw [hfirst] at hyes hpair ⊢
  have htaken : st₁.step ⟨some .kwElse, "else", path⟩ =
      ⟨some .kwElse, rest.map (fun p => .branch (path ++ p)) ++ st.here, st₁.outer,
        st₁.pairs ++ [(path, some (path ++ first))]⟩ := by
    simp [Scan.step, hyes.here]
  have helse : Change P st (st₁.step ⟨some .kwElse, "else", path⟩) (rest.map fun p => .branch (path ++ p)) := by
    rw [htaken]
    refine ⟨rfl, hyes.outer, fun e he => ?_⟩
    rcases mem_append.1 he with he | he
    · exact hyes.pairs e he
    · exact .inr (mem_singleton.1 he ▸ hpair)
  obtain ⟨hno, hend⟩ := h'' (st₁.step ⟨some .kwElse, "else", path⟩) (.of_atEnd (by rw [htaken]; rfl))
  refine ⟨?_, hend⟩
  simpa using helse.trans hno

theorem clause (h : Stated P path s []) (h' : Clause P path t) : Stated P path (s ++ t) [] := by
  intro st hst
  rw [Scan.read_append]
  obtain ⟨hchange', hend'⟩ := h' (st.read path s)
  exact ⟨(h st hst).1.trans hchange', hend'⟩

end Stated

theorem Clause.under (h : Clause P (path ++ [i]) s) : Clause P path (s.under i) := by
  intro st
  rw [Scan.read_under]
  exact h st

theorem Clause.head (h : Headed P path s) (h' : Stated P path t []) : Clause P path (s ++ t) := by
  intro st
  rw [Scan.read_append]
  obtain ⟨hchange, hend⟩ := h st
  obtain ⟨hchange', hend'⟩ := h' _ (.of_atEnd hend)
  exact ⟨hchange.trans hchange', hend'⟩

end JsMinify
