import JsMinify.Proofs.Node.Neighbours

/-!
# Texts with blanks around them

`Spaced` is a text of words with some blanks before and behind it, of which the first and the last word are known to have
some property. Texts are put together with `Spaced.append`, as long as the blanks that meet part the words around them
(`Parting`). At least one blank or line break parts most words (`Parted.spaced`), and a bracket, a comma, a colon or a
semicolon needs none (`Parting.soft`, `Parting.opened`).
-/

namespace JsMinify

open List Lexeme Lexer TokenKind Option Along

/-- Blanks and line breaks. -/
def isGap (s : String) : Bool := s.toList.all fun c => c == ' ' || c == '\n'

@[simp] theorem isGap_append (s t : String) : isGap (s ++ t) = (isGap s && isGap t) := by
  rw [isGap, String.toList_append, all_append]
  rfl

/-! ## Words at the ends -/

variable {k : TokenKind}

namespace Word

/-- The word can begin an expression or a statement: it does not divide. -/
def Starts (w : Word) : Prop := w.isReadIf false = true

def Closes (w : Word) : Prop := w.1.endsOperand = true

def Stops (w : Word) : Prop := w = semi.word ∨ w = rbrace.word

/-- A line may break behind the word. -/
def Breaks (w : Word) : Prop := w ∈ [semi.word, rbrace.word, lbrace.word, colon.word]

/-- A point behind the number would belong to it. -/
def takesPoint (w : Word) : Bool := w.1 == .number && number? (w.2.toList ++ ['.']) != some w.2.toList.length

/-- Directly behind the operator the word is read as something else: `+` before `+`, `-` before `-`, and `++` and `--`
before a regular expression. -/
def fuses (op : String) (v : Word) : Bool :=
  v.2.toList.head?.any (fun c => !stops (TokenKind.ofText op) op.toList c) || !v.isReadIf (TokenKind.ofText op).endsOperand

/-- The word announces the name of an accessor if a name stands behind it. -/
def isAccessor (w : Word) : Bool := w.2 == "get" || w.2 == "set"

/-- The word does not announce the name of an accessor. -/
def IsPlain (w : Word) : Prop := w.1 ≠ .getProp ∧ w.1 ≠ .setProp

instance : DecidablePred Starts := fun w => inferInstanceAs (Decidable (w.isReadIf false = true))

instance : DecidablePred Closes := fun w => inferInstanceAs (Decidable (w.1.endsOperand = true))

instance : DecidablePred Stops := fun w => inferInstanceAs (Decidable (w = semi.word ∨ w = rbrace.word))

instance : DecidablePred IsPlain := fun w => inferInstanceAs (Decidable (w.1 ≠ .getProp ∧ w.1 ≠ .setProp))

variable {w : Word}

theorem Closes.isPlain (h : w.Closes) : w.IsPlain := by
  constructor <;>
  · intro hk
    rw [Closes, hk] at h
    cases h

theorem Closes.isRestricted_eq (h : w.Closes) : w.1.isRestricted = false := by
  have hkind : ∀ k : TokenKind, k.endsOperand → k.isRestricted = false := by
    intro k hk
    cases k <;> first | rfl | cases hk
  exact hkind w.1 h

theorem Breaks.isPlain (h : w.Breaks) : w.IsPlain :=
  (by decide : ∀ w ∈ [semi.word, rbrace.word, lbrace.word, colon.word], IsPlain w) w h

theorem Breaks.plain (h : w.Breaks) : w.2 ≠ "get" ∧ w.2 ≠ "set" ∧ w.1.isRestricted = false :=
  (by decide : ∀ w ∈ [semi.word, rbrace.word, lbrace.word, colon.word],
    w.2 ≠ "get" ∧ w.2 ≠ "set" ∧ w.1.isRestricted = false) w h

theorem Stops.breaks (h : w.Stops) : w.Breaks := by
  rcases h with rfl | rfl <;> simp [Breaks]

theorem fixed_sound : ∀ q ∈ TokenKind.fixed, q.2.word.isSound ∧ q.2.word.IsPlain := by decide +kernel

/-- The word of a kind with one text is read as such. -/
theorem sound_of_isFixed (h : k.isFixed) : k.word.isSound ∧ k.word.IsPlain := by
  obtain ⟨q, hq, hk⟩ := any_eq_true.1 h
  exact beq_iff_eq.1 hk ▸ fixed_sound q hq

theorem starts_of_name (h : w.1 = .identifier) : w.Starts := by
  rw [Starts, isReadIf, h]

/-- The first character of a name. -/
theorem head_of_name (hw : w.isSound) (hname : w.1 = .identifier) : ∀ c ∈ w.2.toList.head?, isNameStart c := by
  intro c hc
  obtain ⟨r, hr⟩ := head?_eq_some_iff.1 hc
  cases opening_of_isSound hw hr with
  | word _ head => exact head
  | @punctuator q listed kind _ _ =>
    have hwordy := (punctuators_never_wordy q listed).1
    rw [← some.inj kind, hname] at hwordy
    cases hwordy
  | blank kind _ => cases kind
  | string kind _ | number kind _ | regex kind _ =>
    rw [hname] at kind
    cases kind

end Word

/-! ## Words that blanks part -/

/-- Blanks before something other than a name do not announce one. -/
theorem opensName_gap {g : String} (hgap : isGap g) (hne : g ≠ "") {c : Char} (hname : isNameStart c = false)
    (r : List Char) : opensName (g.toList ++ c :: r) = false := by
  have hblank : ∀ c ∈ g.toList, c = ' ' ∨ c = '\n' := by simpa [isGap] using hgap
  cases hg : g.toList with
  | nil => exact absurd (String.toList_inj.1 hg) hne
  | cons a g' =>
    cases g' with
    | nil => simp [opensName, hname]
    | cons b g' =>
      have hb : isNameStart b = false := by
        rcases hblank b (by simp [hg]) with rfl | rfl <;> decide
      simp [opensName, hb]

/-- Blanks part two words, unless they make another word of `get` or `set` or change the meaning of a slash. -/
theorem Parted.spaced {w v : Word} {g : String} (hw : w.isSound) (hgap : isGap g) (hne : g ≠ "")
    (hopens : w.2 = "get" ∨ w.2 = "set" → opensName (g.toList ++ v.2.toList) = (w.1 == .getProp || w.1 == .setProp))
    (hbreak : '\n' ∈ g.toList → w.1.isRestricted = false)
    (hslash : v.isReadIf (!g.toList.contains '\n' && w.1.endsOperand)) : Parted w g v := by
  have hblank : ∀ c ∈ g.toList, c = ' ' ∨ c = '\n' := by simpa [isGap] using hgap
  obtain ⟨c, r, hc⟩ : ∃ c r, g.toList = c :: r :=
    exists_cons_of_ne_nil fun h => hne (String.toList_inj.1 h)
  refine ⟨hblank, ⟨fun d hd => ?_, fun _ hd => ?_, hopens⟩, hbreak, hslash⟩
  · rw [hc] at hd
    obtain rfl : c = d := some.inj hd
    refine Word.stops_parting hw ?_
    rcases hblank c (by simp [hc]) with rfl | rfl <;> decide
  · rw [hc] at hd
    obtain rfl : c = '.' := some.inj hd
    exact absurd (hblank '.' (by simp [hc])) (by decide)

/-- Blanks part all words with a property from all words with another one. -/
def Parting (Q : Word → Prop) (g : String) (O : Word → Prop) : Prop :=
  ∀ w v : Word, w.isSound = true → v.isSound = true → Q w → O v → Parted w g v

namespace Parting

variable {Q O : Word → Prop} {g : String} {t : TokenKind}

/-- Punctuators that part a word from what is before it. -/
def softMarks : List TokenKind :=
  [.comma, .semi, .colon, .lparen, .rparen, .lbracket, .rbracket, .lbrace, .rbrace, .question]

theorem softMarks_parting : ∀ t ∈ softMarks, ∃ c ∈ t.word.2.toList.head?, c ∈ parting ∧ c ≠ '.' ∧ c ≠ '/' ∧
    isNameStart c = false := by decide

theorem isFixed_of_soft : t ∈ softMarks → t.isFixed :=
  (by decide : ∀ t ∈ softMarks, t.isFixed) t

/-- The first character of a punctuator that parts words. -/
theorem head_of_soft (ht : t ∈ softMarks) :
    ∃ c r, t.word.2.toList = c :: r ∧ c ∈ parting ∧ c ≠ '.' ∧ c ≠ '/' ∧ isNameStart c = false := by
  obtain ⟨c, hc, hhead⟩ := softMarks_parting t ht
  obtain ⟨r, hr⟩ := head?_eq_some_iff.1 hc
  exact ⟨c, r, hr, hhead⟩

/-- A bracket, a comma, a colon or a semicolon is parted from every word before it. -/
theorem soft (ht : t ∈ softMarks) (hQ : ∀ w, Q w → w.IsPlain) : Parting Q "" (· = t.word) := by
  rintro w v hw hv hq rfl
  obtain ⟨c, r, hr, hparting, hpoint, hslash, -⟩ := head_of_soft ht
  have hc : t.word.2.toList.head? = some c := by rw [hr]; rfl
  refine .of_stops hv (fun d hd => ?_) (fun _ hd => ?_) (hQ w hq).1 (hQ w hq).2 (Word.isReadIf_of_head hv hr hslash _)
  · obtain rfl : c = d := some.inj (hc.symm.trans hd)
    exact Word.stops_parting hw hparting
  · exact hpoint (some.inj (hc.symm.trans hd))

/-- Blanks before such a punctuator. -/
theorem before (ht : t ∈ softMarks) (hgap : isGap g)
    (hQ : ∀ w, Q w → w.IsPlain ∧ w.1.isRestricted = false) : Parting Q g (· = t.word) := by
  by_cases hne : g = ""
  · subst hne
    exact soft ht fun w hw => (hQ w hw).1
  rintro w v hw hv hq rfl
  obtain ⟨hplain, hrestricted⟩ := hQ w hq
  obtain ⟨c, r, hr, -, -, hslash, hname⟩ := head_of_soft ht
  refine .spaced hw hgap hne (fun _ => ?_) (fun _ => hrestricted) (Word.isReadIf_of_head hv hr hslash _)
  have hother : (w.1 == .getProp || w.1 == .setProp) = false := by simp [hplain.1, hplain.2]
  rw [hother, hr]
  exact opensName_gap hgap hne hname r

/-- Punctuators that nothing goes on with. -/
def openMarks : List TokenKind := [.lparen, .lbracket, .comma]

theorem openMarks_alone : ∀ t ∈ openMarks, (t.word.2, t) ∈ punctuators ∧ t.word.1 = t ∧ t.endsOperand = false ∧
    t ≠ .period ∧ t ≠ .divide ∧ ∀ q ∈ punctuators, t.word.2.toList <+: q.1.toList → q.1 = t.word.2 := by decide

/-- What stands behind an opening parenthesis, an opening bracket or a comma is parted from it. -/
theorem opened (ht : t ∈ openMarks) : Parting (· = t.word) "" Word.Starts := by
  rintro w v hw hv rfl hstarts
  obtain ⟨hlisted, hkind, hends, hperiod, hdivide, halone⟩ := openMarks_alone t ht
  have hplain : t.word.1 ≠ .number ∧ t.word.1 ≠ .getProp ∧ t.word.1 ≠ .setProp := by
    have hpunctuator : t.isPunctuator := isPunctuator_of_mem hlisted
    refine ⟨?_, ?_, ?_⟩ <;>
    · intro hk
      rw [← hkind, hk] at hpunctuator
      cases hpunctuator
  refine .of_stops hv (fun c _ => ?_) (fun h => absurd h hplain.1) hplain.2.1 hplain.2.2 (by rw [hkind, hends]; exact hstarts)
  have hbegins : beginsPunctuator (t.word.2.toList ++ [c]) = false := by
    by_contra hbegins
    obtain ⟨q, hq, hprefix⟩ := any_eq_true.1 (Bool.not_eq_false _ ▸ hbegins)
    have hlonger := isPrefixOf_iff_prefix.1 hprefix
    have hlength := hlonger.length_le
    rw [halone q hq ((prefix_append _ _).trans hlonger), length_append, length_singleton] at hlength
    omega
  rw [hkind, stops_punctuator hlisted, hbegins]
  simp [hperiod, hdivide]

/-- Blanks behind a word that ends no operand. -/
theorem behind (ht : (t.word.1.endsOperand || t.word.2 == "get" || t.word.2 == "set") = false) (hgap : isGap g)
    (hne : g ≠ "") (hbreak : '\n' ∈ g.toList → t.word.1.isRestricted = false) : Parting (· = t.word) g Word.Starts := by
  rintro w v hw hv rfl hstarts
  simp only [Bool.or_eq_false_iff, beq_eq_false_iff_ne] at ht
  refine .spaced hw hgap hne (fun h => ?_) hbreak ?_
  · rcases h with h | h
    · exact absurd h ht.1.2
    · exact absurd h ht.2
  · rw [ht.1.1, Bool.and_false]
    exact hstarts

/-- Blanks around a word that is read wherever it stands. -/
theorem around (hgap : isGap g) (hne : g ≠ "")
    (hQ : ∀ w, Q w → w.2 ≠ "get" ∧ w.2 ≠ "set" ∧ w.1.isRestricted = false) (hO : ∀ v, O v → v.Starts ∧ v.1 ≠ .regex) :
    Parting Q g O := by
  intro w v hw hv hq ho
  obtain ⟨hget, hset, hrestricted⟩ := hQ w hq
  refine .spaced hw hgap hne (fun h => absurd h (not_or.2 ⟨hget, hset⟩)) (fun _ => hrestricted) ?_
  cases !g.toList.contains '\n' && w.1.endsOperand with
  | true => exact Word.isReadIf_true (hO v ho).2
  | false => exact (hO v ho).1

/-- A line break. -/
theorem broken (hgap : isGap g) (hbreak : '\n' ∈ g.toList) : Parting Word.Breaks g Word.Starts := by
  rintro w v hw hv hbreaks hstarts
  have hplain : w.2 ≠ "get" ∧ w.2 ≠ "set" ∧ w.1.isRestricted = false := hbreaks.plain
  refine .spaced hw hgap ?_ (fun h => absurd h (not_or.2 ⟨hplain.1, hplain.2.1⟩)) (fun _ => hplain.2.2) ?_
  · rintro rfl
    cases hbreak
  · rw [contains_iff_mem.2 hbreak, Bool.not_true, Bool.false_and]
    exact hstarts

/-- A point behind an expression. -/
theorem point : Parting (fun w => w.Closes ∧ w.takesPoint = false) "" (· = period.word) := by
  rintro w v hw hv ⟨hcloses, hnumber⟩ rfl
  refine ⟨nofun, ⟨fun c hc => ?_, fun hk _ => ?_, fun _ => ?_⟩, nofun, rfl⟩
  · obtain rfl : '.' = c := some.inj hc
    exact Word.stops_parting hw (by decide)
  · rw [Word.takesPoint, hk, beq_self_eq_true, Bool.true_and, bne_eq_false_iff_eq] at hnumber
    exact hnumber
  · have hplain : (w.1 == .getProp || w.1 == .setProp) = false := by simp [hcloses.isPlain.1, hcloses.isPlain.2]
    rw [hplain]
    rfl

/-- A word that begins with a letter, behind a punctuator. -/
theorem letter (ht : t.word.1.isPunctuator) : Parting (· = t.word) "" fun v => ∀ c ∈ v.2.toList.head?, isNameStart c := by
  rintro w v hw hv rfl hletter
  exact .beforeOperand hw ht hv fun c hc => .inl (hletter c hc)

/-- A name behind a point. -/
theorem member : Parting (· = period.word) "" (·.1 = .identifier) :=
  fun w v hw hv hperiod hname => letter rfl w v hw hv hperiod (Word.head_of_name hv hname)

theorem mono {Q' O' : Word → Prop} (h : Parting Q g O) (hQ : ∀ w, Q' w → Q w) (hO : ∀ w, O' w → O w) : Parting Q' g O' :=
  fun w v hw hv hq ho => h w v hw hv (hQ w hq) (hO v ho)

end Parting

/-! ## Texts -/

/-- The text consists of some words with blanks around them; the first and the last word have some property. -/
structure Spaced (O Q : Word → Prop) (lead : String) (ws : List Word) (text trail : String) : Prop where
  spells : ∃ s, Spells ws s ∧ text = lead ++ s ++ trail
  nonempty : ws ≠ []
  opens : ∀ v ∈ ws.head?, O v
  closes : ∀ w ∈ ws.getLast?, Q w

variable {wss : List (List Word)} {ts : List String}

namespace Spaced

variable {O O' Q Q' : Word → Prop} {a b c d : String} {ws us : List Word} {s t : String}

theorem mono (h : Spaced O Q a ws s b) (hO : ∀ w, O w → O' w) (hQ : ∀ w, Q w → Q' w) : Spaced O' Q' a ws s b :=
  ⟨h.spells, h.nonempty, fun v hv => hO v (h.opens v hv), fun w hw => hQ w (h.closes w hw)⟩

/-- A single word. -/
theorem word {w : Word} (hw : w.isSound) (hplain : w.IsPlain) : Spaced (· = w) (· = w) "" [w] w.2 "" :=
  ⟨⟨w.2, .word hw hplain.1 hplain.2, by simp⟩, cons_ne_nil _ _, by simp, by simp⟩

theorem name {x : String} (hx : Word.isSound (.identifier, x)) :
    Spaced (·.1 = .identifier) Word.Closes "" [(.identifier, x)] x "" :=
  (word hx (by simp [Word.IsPlain])).mono (fun _ h => congrArg Prod.fst h) fun _ h => h ▸ rfl

theorem spelled (h : Spaced O Q "" ws s "") : Spells ws s := by
  obtain ⟨u, hu, rfl⟩ := h.spells
  simpa using hu

/-- The words that a text is split into. -/
theorem splitsInto (h : Spaced Word.Starts Q "" ws s "") : SplitsInto s ws :=
  h.spelled.splitsInto h.opens

/-- Blanks around a text. -/
theorem pad (h : Spaced O Q a ws s b) (c d : String) : Spaced O Q (c ++ a) ws (c ++ s ++ d) (b ++ d) := by
  obtain ⟨u, hu, rfl⟩ := h.spells
  exact ⟨⟨u, hu, by simp [String.append_assoc]⟩, h.nonempty, h.opens, h.closes⟩

/-- Two texts one after the other. -/
theorem append (h : Spaced O Q a ws s b) (h' : Spaced O' Q' c us t d) (hparting : Parting Q (b ++ c) O') :
    Spaced O Q' a (ws ++ us) (s ++ t) d := by
  obtain ⟨u, hu, rfl⟩ := h.spells
  obtain ⟨v, hv, rfl⟩ := h'.spells
  refine ⟨⟨u ++ (b ++ c) ++ v, hu.join h.nonempty hv h'.nonempty fun x hx y hy => ?_, by simp [String.append_assoc]⟩, ?_,
    fun x hx => h.opens x ?_, fun x hx => h'.closes x ?_⟩
  · exact hparting x y (hu.sound x (mem_of_getLast? hx)) (hv.sound y (mem_of_mem_head? hy)) (h.closes x hx) (h'.opens y hy)
  · simp [h.nonempty]
  · rwa [head?_append_of_ne_nil _ h.nonempty] at hx
  · rwa [getLast?_append_of_ne_nil _ h'.nonempty] at hx

theorem cast (h : Spaced O Q a ws s b) (hws : ws = us) (hs : s = t) : Spaced O Q a us t b := by
  rwa [← hws, ← hs]

/-- A text is not empty. -/
theorem text_ne (h : Spaced O Q a ws s b) : s ≠ "" := by
  obtain ⟨u, hu, rfl⟩ := h.spells
  obtain ⟨w, ws, rfl⟩ := exists_cons_of_ne_nil h.nonempty
  obtain ⟨hw, x, hx⟩ := hu.exists_rest
  intro hempty
  have hnil : a.toList ++ (w.2.toList ++ x) ++ b.toList = [] := by
    rw [← hx, ← String.toList_append, ← String.toList_append, hempty]
    rfl
  rw [append_eq_nil_iff, append_eq_nil_iff, append_eq_nil_iff] at hnil
  exact Piece.text_ne_of_isSound hw hnil.1.2.1

/-- A word with one text, with blanks around it. -/
theorem token (k : TokenKind) (lead text trail : String) (h : k.isFixed && text == lead ++ k.word.2 ++ trail) :
    Spaced (· = k.word) (· = k.word) lead [k.word] text trail := by
  rw [Bool.and_eq_true, beq_iff_eq] at h
  obtain ⟨hfixed, rfl⟩ := h
  obtain ⟨hsound, hplain⟩ := Word.sound_of_isFixed hfixed
  simpa using (word hsound hplain).pad lead trail

/-- A bracket, a comma, a colon or a semicolon behind a text. -/
theorem markAfter (h : Spaced O Q a ws s "") (hQ : ∀ w, Q w → w.IsPlain) (k : TokenKind) (text trail : String)
    (hk : Parting.softMarks.contains k && text == k.word.2 ++ trail) :
    Spaced O (· = k.word) a (ws ++ [k.word]) (s ++ text) trail := by
  rw [Bool.and_eq_true, beq_iff_eq, contains_iff_mem] at hk
  obtain ⟨hsoft, rfl⟩ := hk
  obtain ⟨hsound, hplain⟩ := Word.sound_of_isFixed (Parting.isFixed_of_soft hsoft)
  have hword : Spaced (· = k.word) (· = k.word) "" [k.word] (k.word.2 ++ trail) trail := by
    simpa using (word hsound hplain).pad "" trail
  exact h.append hword (.soft hsoft hQ)

/-- A bracket, a comma, a colon or a semicolon behind an expression. -/
theorem mark (h : Spaced O Word.Closes a ws s "") (k : TokenKind) (text trail : String)
    (hk : Parting.softMarks.contains k && text == k.word.2 ++ trail) :
    Spaced O (· = k.word) a (ws ++ [k.word]) (s ++ text) trail :=
  h.markAfter (fun _ h => h.isPlain) k text trail hk

/-- What stands behind an opening bracket or a comma. -/
theorem enter (h : Spaced O (· = k.word) a ws s "") (h' : Spaced Word.Starts Q' "" us t b)
    (hk : Parting.openMarks.contains k) : Spaced O Q' a (ws ++ us) (s ++ t) b :=
  h.append h' (.opened (contains_iff_mem.1 hk))

/-- What stands behind a word and some blanks. -/
theorem next (h : Spaced O (· = k.word) a ws s b) (h' : Spaced Word.Starts Q' "" us t d)
    (hk : !(k.word.1.endsOperand || k.word.2 == "get" || k.word.2 == "set") && isGap b && b != "" &&
      (!b.toList.contains '\n' || !k.word.1.isRestricted)) : Spaced O Q' a (ws ++ us) (s ++ t) d := by
  simp only [Bool.and_eq_true, Bool.not_eq_true', bne_iff_ne, Bool.or_eq_true] at hk
  obtain ⟨⟨⟨hword, hgap⟩, hne⟩, hbreak⟩ := hk
  refine h.append h' ?_
  rw [String.append_empty]
  refine .behind hword hgap hne fun hmem => hbreak.resolve_left ?_
  simpa using hmem

/-- Texts with a separator between them. -/
theorem intercalate {sep : List Word} {between : String}
    (hsep : ∀ {ws us s t}, Spaced O Q a ws s b → Spaced O Q a us t b → Spaced O Q a (ws ++ sep ++ us) (s ++ between ++ t) b)
    (h : List.Forall₂ (fun ws t => Spaced O Q a ws t b) wss ts) (hne : wss ≠ []) :
    Spaced O Q a (sep.intercalate wss) (between.intercalate ts) b := by
  induction h with
  | nil => exact absurd rfl hne
  | @cons ws s wss ts first rest ih =>
    cases rest with
    | nil => simpa using first
    | @cons us t wss ts second rest =>
      rw [intercalate_cons_cons, String.intercalate_cons_cons]
      exact hsep first (ih (cons_ne_nil _ _))

theorem starts (h : Spaced (· = k.word) Q a ws s b) (hk : k.word.Starts) : Spaced Word.Starts Q a ws s b :=
  h.mono (fun _ h => h ▸ hk) fun _ => id

theorem closed (h : Spaced O (· = k.word) a ws s b) (hk : k.word.Closes) : Spaced O Word.Closes a ws s b :=
  h.mono (fun _ => id) fun _ h => h ▸ hk

/-- An expression between parentheses. -/
theorem inParens (h : Spaced Word.Starts Word.Closes "" ws s "") :
    Spaced (· = lparen.word) (· = rparen.word) "" ([lparen.word] ++ ws ++ [rparen.word]) ("(" ++ s ++ ")") "" :=
  ((token .lparen "" "(" "" rfl).enter h rfl).mark .rparen ")" "" rfl

end Spaced

/-- The text of a list that may be empty. -/
def Itemized (ws : List Word) (t : String) : Prop := ws = [] ∧ t = "" ∨ Spaced Word.Starts Word.Closes "" ws t ""

/-- Expressions with commas between them. -/
theorem Itemized.commas {sep : String} (hsep : sep = "," ∨ sep = ", ")
    (h : List.Forall₂ (fun ws t => Spaced Word.Starts Word.Closes "" ws t "") wss ts) :
    Itemized (joined (some .comma) wss) (sep.intercalate ts) := by
  by_cases hne : wss = []
  · subst hne
    cases h
    exact .inl ⟨by simp [joined], rfl⟩
  · refine .inr (Spaced.intercalate (fun {ws us s t} h h' => ?_) h hne)
    rcases hsep with rfl | rfl
    · exact (h.mark .comma "," "" rfl).enter h' rfl
    · exact (h.mark .comma ", " " " rfl).next h' rfl

namespace Spaced

variable {O Q : Word → Prop} {a : String} {ws us : List Word} {s t : String}

/-- A list between parentheses behind a text. -/
theorem listed (h : Spaced O Q a ws s "") (hQ : ∀ w, Q w → w.IsPlain) (ht : Itemized us t) (text trail : String)
    (htext : (text == ")" ++ trail)) :
    Spaced O (· = rparen.word) a (ws ++ [lparen.word] ++ us ++ [rparen.word]) (s ++ "(" ++ t ++ text) trail := by
  have hopen := h.markAfter hQ .lparen "(" "" rfl
  have hlist : Spaced O (fun w => w = lparen.word ∨ w.Closes) a (ws ++ [lparen.word] ++ us) (s ++ "(" ++ t) "" := by
    rcases ht with ⟨rfl, rfl⟩ | ht
    · exact (hopen.mono (fun _ => id) fun _ => .inl).cast (append_nil _).symm String.append_empty.symm
    · exact (hopen.enter ht rfl).mono (fun _ => id) fun _ => .inr
  refine hlist.markAfter (fun w hw => ?_) .rparen text trail (Bool.and_eq_true_iff.2 ⟨rfl, htext⟩)
  rcases hw with rfl | hw
  · decide
  · exact hw.isPlain

end Spaced

end JsMinify
