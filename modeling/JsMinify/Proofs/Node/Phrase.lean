import JsMinify.Proofs.Lexer.Gaps
import JsMinify.Proofs.Node.Joining
import JsMinify.Proofs.Node.Words

/-!
# Words with blanks between them

`Spells ws text` says that a text is made up of words with blanks and line breaks between them, where no word runs
on into the next one (`Parted`). Such a text is split into these words (`Spells.splitsInto`). Texts are put
together from parts (`Spells.append`), so a printed tree is read back if its parts are and if neighbours are parted.
-/

namespace JsMinify

open List hiding next?
open Lexeme Lexer Option

namespace Word

def isSound (w : Word) : Bool := Piece.isSound ⟨some w.1, w.2, []⟩

/-- The word is read where a slash divides, or where it opens a regular expression. -/
def isReadIf (divides : Bool) (w : Word) : Bool :=
  match w.1 with
  | .regex => !divides
  | .divide | .divideAssign => divides
  | _ => true

/-- What stands behind a word does not go on with it. -/
structure Ends (w : Word) (x : List Char) : Prop where
  stops : ∀ c ∈ x.head?, stops w.1 w.2.toList c = true
  point : w.1 = .number → x.head? = some '.' → number? (w.2.toList ++ ['.']) = some w.2.toList.length
  opens : w.2 = "get" ∨ w.2 = "set" → opensName x = (w.1 == .getProp || w.1 == .setProp)

end Word

/-- Two words with blanks between them are read apart. -/
structure Parted (w : Word) (gap : String) (v : Word) : Prop where
  blanks : ∀ c ∈ gap.toList, c = ' ' ∨ c = '\n'
  ends : w.Ends (gap.toList ++ v.2.toList)
  breaks : '\n' ∈ gap.toList → w.1.isRestricted = false
  slash : v.isReadIf (!gap.toList.contains '\n' && w.1.endsOperand) = true

/-- The text is made up of the words, with blanks between them that part them. -/
inductive Spells : List Word → String → Prop where
  | nil : Spells [] ""
  | one {w : Word} (sound : w.isSound = true) (ends : w.Ends []) : Spells [w] w.2
  | cons {w v : Word} {ws : List Word} {text : String} (gap : String) (sound : w.isSound = true)
      (parted : Parted w gap v) (rest : Spells (v :: ws) text) : Spells (w :: v :: ws) (w.2 ++ gap ++ text)

/-! ## Line breaks -/

variable {x s g : List Char}

namespace Lexer

theorem Gap.blank {us : List (TokenKind × List Char)} (h : Gap x us s) : Gap (' ' :: x) us s := by
  cases h with
  | @nil b _ blanks => exact .nil (b := ' ' :: b) (forall_mem_cons.2 ⟨rfl, blanks⟩)
  | @cons b w r _ k us blanks lexeme trivia more =>
    exact .cons (b := ' ' :: b) (forall_mem_cons.2 ⟨rfl, blanks⟩) lexeme trivia more

/-- Blanks and line breaks make up a gap. -/
theorem gap_of_blanks (hg : ∀ c ∈ g, c = ' ' ∨ c = '\n') (v : List Char) :
    ∃ us, Gap (g ++ v) us v ∧ us.isEmpty = !g.contains '\n' := by
  induction g with
  | nil => exact ⟨[], .nil (b := []) nofun, rfl⟩
  | cons c g ih =>
    obtain ⟨hc, hg⟩ := forall_mem_cons.1 hg
    obtain ⟨us, hgap, hempty⟩ := ih hg
    rcases hc with rfl | rfl
    · exact ⟨us, hgap.blank, hempty⟩
    · exact ⟨(.lineEnd, ['\n']) :: us, .cons (b := []) (w := ['\n']) nofun (rule?_break _) rfl hgap, by simp⟩

end Lexer

/-! ## Words -/

namespace Word

variable {w : Word}

/-- A word begins with a character that is no blank, and with a slash only if it divides or is a regular
expression. -/
theorem exists_head (h : w.isSound) : ∃ c r, w.2.toList = c :: r ∧ Text.blankRanges.contains c = false ∧
    (c = '/' → w.1 = .regex ∨ w.1 = .divide ∨ w.1 = .divideAssign) := by
  obtain ⟨c, r, hc⟩ := exists_cons_of_ne_nil (Piece.text_ne_of_isSound h)
  have hopening := opening_of_isSound h hc
  refine ⟨c, r, hc, hopening.not_blank nofun, ?_⟩
  rintro rfl
  cases hopening with
  | blank kind _ => cases kind
  | string _ head => rcases head with head | head <;> cases head
  | word _ head => exact absurd head (by decide)
  | number _ head =>
    rcases head with head | head
    · cases head
    · cases head
  | regex kind _ => exact .inl (some.inj kind)
  | @punctuator q listed kind head _ =>
    rw [some.inj kind]
    exact .inr (Lexeme.punctuators_slash q listed head)

theorem isWhole_of_isSound (h : w.isSound) (hget : w.1 ≠ .getProp) (hset : w.1 ≠ .setProp) :
    isWhole w.1 w.2.toList ∧ w.1.isTrivia = false := by
  unfold isSound Piece.isSound at h
  split at h
  · next he => cases he
  · next he => exact absurd (some.inj he) hget
  · next he => exact absurd (some.inj he) hset
  · next he =>
    rw [Bool.and_eq_true, Bool.not_eq_true', ← some.inj he] at h
    exact h.symm

theorem rule?_eq (h : w.isSound) (hregex : w.1 ≠ .regex) (hx : w.Ends x) :
    rule? (w.2.toList ++ x) = some (w.1, w.2.toList.length) := by
  by_cases hget : w.1 = .getProp
  · have htext : w.2 = "get" := by
      obtain ⟨k, text⟩ := w
      obtain rfl : k = .getProp := hget
      exact beq_iff_eq.1 h
    have hopens := hx.opens (.inl htext)
    rw [hget, htext]
    exact rule?_accessor (by decide) (accessor?_eq_some_iff.2 ⟨x, rfl, by rw [hopens, hget]; rfl, rfl⟩)
  by_cases hset : w.1 = .setProp
  · have htext : w.2 = "set" := by
      obtain ⟨k, text⟩ := w
      obtain rfl : k = .setProp := hset
      exact beq_iff_eq.1 h
    have hopens := hx.opens (.inr htext)
    rw [hset, htext]
    exact rule?_accessor (by decide) (accessor?_eq_some_iff.2 ⟨x, rfl, by rw [hopens, hset]; rfl, rfl⟩)
  obtain ⟨hwhole, htrivia⟩ := isWhole_of_isSound h hget hset
  by_cases hstring : w.1 = .string
  · rw [hstring] at hwhole ⊢
    simp only [isWhole, Bool.and_eq_true, beq_iff_eq] at hwhole
    have hread := string?_take hwhole.1 x
    rw [take_length] at hread
    exact rule?_string hread
  have hrule := rule?_of_isWhole hwhole hstring hregex
  have hplain : (w.1 == .getProp || w.1 == .setProp) = false := by simp [hget, hset]
  by_cases hpoint : w.1 = .number ∧ x.head? = some '.'
  · -- A number before a point is read as before a point alone.
    have hnumber := hx.point hpoint.1 hpoint.2
    have hclear : Clear x := by
      intro c hc
      have hstops := hx.stops c hc
      rw [hpoint.1] at hstops
      simpa [stops] using hstops
    have hread := number?_take hnumber hclear fun _ => by rw [drop_left]; rfl
    rw [take_left] at hread
    rw [hpoint.1]
    exact rule?_number hread
  · have htake := rule?_take hrule htrivia (x := x) (by
      rw [take_length, drop_length]
      refine ⟨hx.stops, fun hnumber hhead => absurd ⟨hnumber, hhead⟩ hpoint, fun htext => ?_⟩
      rw [String.toList_inj, String.toList_inj] at htext
      rw [hx.opens htext, hplain]
      rfl)
    rwa [take_length] at htake

/-- A word is read before a text that does not go on with it. -/
theorem next?_eq (h : w.isSound) (hx : w.Ends x) {divides : Bool} (hd : w.isReadIf divides) :
    next? divides (w.2.toList ++ x) = some (w.1, w.2.toList.length) := by
  obtain ⟨c, r, hc, -, hslash⟩ := exists_head h
  by_cases hregex : w.1 = .regex
  · have hwhole := (isWhole_of_isSound h (by rw [hregex]; nofun) (by rw [hregex]; nofun)).1
    rw [hregex] at hwhole ⊢
    have hread : regex? w.2.toList = some w.2.toList.length := beq_iff_eq.1 hwhole
    have hclear : Clear x := by
      intro d hd
      have hstops := hx.stops d hd
      rw [hregex] at hstops
      simpa [stops] using hstops
    have hdivides : divides = false := by
      rw [isReadIf, hregex] at hd
      simpa using hd
    have hnext := regex?_take hread hclear
    rw [take_length] at hnext
    rw [next?, opensSlash_of_regex? hnext, hdivides, hnext]
    rfl
  · have hrule := rule?_eq h hregex hx
    rw [next?]
    split
    · next hopens =>
      rw [Bool.and_eq_true, Bool.not_eq_true', hc, cons_append] at hopens
      have hfirst : c = '/' := by
        by_contra hne
        rw [opensSlash_eq_false (by simpa using hne)] at hopens
        cases hopens.1
      have hdivides : divides := by
        rw [isReadIf] at hd
        rcases hslash hfirst with hk | hk | hk
        · exact absurd hk hregex
        · simpa [hk] using hd
        · simpa [hk] using hd
      rw [hdivides] at hopens
      cases hopens.2
    · exact hrule

/-- What stands behind a word goes on with the word behind it. -/
theorem Ends.append {gap : List Char} {v : Word} (hv : v.isSound) (h : w.Ends (gap ++ v.2.toList)) (x : List Char) :
    w.Ends (gap ++ (v.2.toList ++ x)) := by
  obtain ⟨c, r, hc, hblank, -⟩ := exists_head hv
  have hhead : (gap ++ (v.2.toList ++ x)).head? = (gap ++ v.2.toList).head? := by
    rw [hc]
    cases gap <;> rfl
  have hopens : opensName (gap ++ (v.2.toList ++ x)) = opensName (gap ++ v.2.toList) := by
    have hnone : ∀ s, opensName (c :: s) = false := by
      intro s
      unfold opensName
      split
      · next he =>
        rw [← (List.cons.inj he).1, hblank, Bool.false_and]
      · rfl
    rw [hc]
    cases gap with
    | nil => rw [nil_append, nil_append, cons_append, hnone, hnone]
    | cons b gap =>
      cases gap with
      | nil => rfl
      | cons b' gap => rfl
  exact ⟨fun d hd => h.stops d (hhead ▸ hd), fun hk hd => h.point hk (hhead ▸ hd), fun htext => hopens.trans (h.opens htext)⟩

end Word

/-! ## Texts -/

variable {l : Lexer}

namespace Lexer

/-- A word behind blanks and line breaks is handed out. -/
theorem token_word (hl : l.Plain) {w : Word} (hw : w.isSound)
    (hrest : l.rest = g ++ (w.2.toList ++ x)) (hg : ∀ c ∈ g, c = ' ' ∨ c = '\n') (hx : w.Ends x)
    (hcur : '\n' ∈ g → l.cur.any (·.kind.isRestricted) = false)
    (hread : w.isReadIf (!g.contains '\n' && l.slashDivides)) :
    ∃ t l', l.token = (.ok (some t), l') ∧ (t.kind, t.text) = w ∧ l'.rest = x ∧ l'.cur.map (·.kind) = some w.1 ∧ l'.Plain := by
  obtain ⟨us, hgap, hempty⟩ := gap_of_blanks hg (w.2.toList ++ x)
  have hfirst : (l.cur.any (·.kind.isRestricted) && us.head?.any (·.1 = .lineEnd)) = false := by
    cases us with
    | nil => exact Bool.and_false _
    | cons u us => rw [hcur (by simpa using hempty.symm), Bool.false_and]
  obtain ⟨t, l', htoken, hkind, htext, hrest', hcur', -, hl'⟩ := Gap.token (hrest ▸ hgap) hl hfirst
    (by rw [hempty]; exact Word.next?_eq hw hx hread) (Piece.solid_of_isSound hw rfl)
  rw [take_left, Piece.joined_of_isSound hw rfl] at htext
  rw [drop_left] at hrest'
  exact ⟨t, l', htoken, Prod.ext hkind (String.toList_inj.1 htext), hrest', hcur', hl'⟩

end Lexer

namespace Spells

variable {ws us : List Word} {text : String}

/-- A text begins with its first word. -/
theorem exists_rest {w : Word} (h : Spells (w :: ws) text) : w.isSound ∧ ∃ x, text.toList = w.2.toList ++ x := by
  cases h with
  | one sound _ => exact ⟨sound, [], (append_nil _).symm⟩
  | @cons _ v _ rest gap sound _ _ => exact ⟨sound, gap.toList ++ rest.toList, by simp⟩

/-- A text that is spelled out is read word by word. -/
theorem drainFrom_eq (h : Spells ws text) (hl : l.Plain) (hrest : l.rest = g ++ text.toList)
    (hg : ∀ c ∈ g, c = ' ' ∨ c = '\n') (hcur : '\n' ∈ g → l.cur.any (·.kind.isRestricted) = false)
    (hfirst : ∀ w ∈ ws.head?, w.isReadIf (!g.contains '\n' && l.slashDivides)) (hempty : ws = [] → g = [])
    {fuel : Nat} (hfuel : l.rest.length < fuel) :
    (drainFrom fuel l).1.map (fun t => (t.kind, t.text)) = ws ∧ (drainFrom fuel l).2.1 = .ok () := by
  induction h generalizing l g fuel with
  | nil =>
    obtain ⟨fuel, rfl⟩ := Nat.exists_eq_add_of_lt (Nat.zero_lt_of_lt hfuel)
    obtain ⟨l', hend⟩ := token_end hl (by simp [hrest, hempty rfl])
    rw [Nat.zero_add, drainFrom, hend]
    exact ⟨rfl, rfl⟩
  | @one w sound ends =>
    obtain ⟨fuel, rfl⟩ := Nat.exists_eq_add_of_lt (Nat.zero_lt_of_lt hfuel)
    obtain ⟨t, l', htoken, hword, hrest', -, hl'⟩ :=
      token_word hl sound (x := []) (by rw [hrest, append_nil]) hg ends hcur (hfirst w rfl)
    obtain ⟨l'', hend⟩ := token_end hl' (by simp [hrest'])
    have hpos : 0 < fuel := by
      obtain ⟨c, r, hc, -⟩ := Word.exists_head sound
      rw [hrest, length_append, hc, length_cons] at hfuel
      omega
    obtain ⟨fuel, rfl⟩ := Nat.exists_eq_add_of_lt hpos
    rw [Nat.zero_add, Nat.zero_add, drainFrom, htoken]
    simp only [drainFrom, hend]
    exact ⟨by rw [map_singleton, hword], trivial⟩
  | @cons w v ws text gap sound parted rest ih =>
    obtain ⟨fuel, rfl⟩ := Nat.exists_eq_add_of_lt (Nat.zero_lt_of_lt hfuel)
    obtain ⟨hv, x, hx⟩ := rest.exists_rest
    have hends : w.Ends (gap.toList ++ text.toList) := by
      rw [hx]
      exact parted.ends.append hv x
    obtain ⟨t, l', htoken, hword, hrest', hcur', hl'⟩ := token_word hl sound (x := gap.toList ++ text.toList)
      (by rw [hrest, String.toList_append, String.toList_append, append_assoc]) hg hends hcur (hfirst w rfl)
    obtain ⟨u, hu, huk⟩ := map_eq_some_iff.1 hcur'
    have hshort : l'.rest.length < fuel := by
      obtain ⟨c, r, hc, -⟩ := Word.exists_head sound
      rw [hrest, String.toList_append, String.toList_append, append_assoc, hc, length_append,
        cons_append, length_cons, length_append] at hfuel
      rw [hrest']
      omega
    have hdone := ih (l := l') (g := gap.toList) hl' hrest' parted.blanks
      (fun hbreak => by simpa [hu, huk] using parted.breaks hbreak)
      (fun v' hv' => by
        obtain rfl : v = v' := some.inj hv'
        rw [slashDivides, hu, any_some, huk]
        exact parted.slash)
      (by simp) hshort
    rw [Nat.zero_add, drainFrom, htoken]
    exact ⟨by rw [map_cons, hdone.1, hword], hdone.2⟩

/-- A text that is spelled out is split into its words, if it does not begin with a division. -/
theorem splitsInto (h : Spells ws text) (hfirst : ∀ w ∈ ws.head?, w.isReadIf false) : SplitsInto text ws := by
  have hdrain : tokenize text = drainFrom (0 + text.toList.length + 1) (({} : Lexer).input text) := rfl
  unfold SplitsInto
  rw [hdrain]
  refine h.drainFrom_eq (l := ({} : Lexer).input text) (g := []) ⟨rfl, rfl, rfl⟩ rfl nofun nofun hfirst (fun _ => rfl) ?_
  change text.toList.length < _
  omega

/-- Two texts with blanks between them that part the last word of the first from the first word of the second. -/
theorem append {w v : Word} {first second : String} {gap : String} (h : Spells (ws ++ [w]) first)
    (h' : Spells (v :: us) second) (hparted : Parted w gap v) : Spells (ws ++ w :: v :: us) (first ++ gap ++ second) := by
  induction ws generalizing first with
  | nil =>
    cases h with
    | one sound _ => exact .cons gap sound hparted h'
  | cons u ws ih =>
    -- The next word stands in the list, or is the last one.
    obtain ⟨u', ws', hcons⟩ := exists_cons_of_ne_nil (append_ne_nil_of_right_ne_nil ws (cons_ne_nil w []))
    rw [cons_append, hcons] at h
    cases h with
    | @cons _ _ _ text gap' sound parted rest =>
      obtain ⟨us', hus⟩ : ∃ us', ws ++ w :: v :: us = u' :: us' := by
        cases ws with
        | nil | cons x ws => exact ⟨_, by rw [(List.cons.inj hcons).1]; rfl⟩
      have hrest := ih (hcons ▸ rest)
      rw [hus] at hrest
      have hjoined := Spells.cons gap' sound parted hrest
      rw [← hus] at hjoined
      simpa only [String.append_assoc, cons_append] using hjoined

end Spells

end JsMinify
