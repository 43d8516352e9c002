import JsMinify.Proofs.Lexer.Found
import JsMinify.Proofs.Node.Spelling

/-!
# Reading printed pieces back

A printed text is read back piece by piece if at the place of each piece the lexer finds a lexeme of its kind
and its length (`Legible`). `splitsInto_iff` says that this is what it takes for the lexer to split the text
into the tokens that were printed. One direction follows the pieces through the lexer. For the other, no
character may get lost: the tokens have as many characters as the text, blanks apart, so nothing but blanks
was passed over.
-/

namespace JsMinify

open List Lexeme Lexer Piece

namespace Piece

def tokens : List Piece → List (TokenKind × String)
  | [] => []
  | ⟨none, _, _⟩ :: ps => tokens ps
  | ⟨some k, text, _⟩ :: ps => (k, text) :: tokens ps

/-- A token whose text is one lexeme of its kind, or a blank. -/
def isSound (p : Piece) : Bool :=
  match p.kind with
  | none => p.text == " "
  | some .getProp => p.text == "get"
  | some .setProp => p.text == "set"
  | some k => !k.isTrivia && isWhole k p.text.toList

end Piece

/-- The pieces are read back one by one, where a token of the kind `last` stands before them and `x` after
them. -/
def Legible : Option TokenKind → List Piece → List Char → Prop
  | _, [], _ => True
  | last, ⟨none, _, _⟩ :: ps, x => Legible last ps x
  | last, ⟨some k, text, _⟩ :: ps, x =>
    next? (last.any (·.endsOperand)) (text.toList ++ ((textOf ps).toList ++ x)) =
      some (k, text.toList.length) ∧ Legible (some k) ps x

/-- The text is split into these tokens and nothing else. -/
def SplitsInto (text : String) (ts : List (TokenKind × String)) : Prop :=
  (tokenize text).1.map (fun t => (t.kind, t.text)) = ts ∧ (tokenize text).2.1 = .ok ()

variable {ps : List Piece}

namespace Piece

variable {p : Piece}

theorem blank_of_isSound (h : p.isSound) (hk : p.kind = none) : p.text = " " := by
  unfold isSound at h
  rw [hk] at h
  exact beq_iff_eq.1 h

variable {k : TokenKind}

theorem solid_of_isSound (h : p.isSound) (hk : p.kind = some k) : k.isTrivia = false := by
  unfold isSound at h
  rw [hk] at h
  split at h
  · next he => cases he
  · next he =>
    cases he
    rfl
  · next he =>
    cases he
    rfl
  · next he =>
    cases he
    simp only [Bool.and_eq_true, Bool.not_eq_true'] at h
    exact h.1

/-- The lines of a string that is printed are joined. -/
theorem joined_of_isSound (h : p.isSound) (hk : p.kind = some k) : joined k p.text.toList = p.text.toList := by
  unfold joined
  split
  · next hs =>
    subst hs
    unfold isSound at h
    rw [hk] at h
    simp only [isWhole, Bool.and_eq_true, Bool.not_eq_true', contains_eq_mem, decide_eq_false_iff_not] at h
    exact joinLines_of_noBreak h.2.2
  · rfl

/-- The text of pieces has the characters of their tokens, blanks apart. -/
theorem solid_textOf (h : ∀ p ∈ ps, p.isSound) : solid (textOf ps).toList = solid ((tokens ps).flatMap (·.2.toList)) := by
  induction ps with
  | nil => rfl
  | cons p ps ih =>
    obtain ⟨hp, hps⟩ := forall_mem_cons.1 h
    obtain ⟨kind, text, owner⟩ := p
    rw [textOf, String.toList_append, solid_append, ih hps]
    cases kind with
    | none =>
      obtain rfl : text = " " := blank_of_isSound hp rfl
      have hblank : solid " ".toList = 0 := by decide
      rw [hblank, Nat.zero_add]
      rfl
    | some k => rw [tokens, flatMap_cons, solid_append]

end Piece

namespace Lexer

variable {l : Lexer} {b : List Char} {fuel : Nat}

/-- Pieces that can be read back one by one are read as they are. -/
theorem drainFrom_of_legible (hl : l.Plain) (hs : ∀ p ∈ ps, p.isSound) (hrest : l.rest = b ++ (textOf ps).toList)
    (hb : ∀ c ∈ b, isBlank c) (hfuel : l.rest.length < fuel)
    (h : Legible (l.cur.map (·.kind)) ps []) :
    (drainFrom fuel l).1.map (fun t => (t.kind, t.text)) = tokens ps ∧ (drainFrom fuel l).2.1 = .ok () := by
  induction ps generalizing l b fuel with
  | nil =>
    obtain ⟨fuel, rfl⟩ := Nat.exists_eq_add_of_lt (Nat.zero_lt_of_lt hfuel)
    obtain ⟨l', hend⟩ := token_end hl (by simpa [hrest, textOf] using hb)
    rw [Nat.zero_add, drainFrom, hend]
    exact ⟨rfl, rfl⟩
  | cons p ps ih =>
    obtain ⟨hp, hps⟩ := forall_mem_cons.1 hs
    obtain ⟨kind, text, owner⟩ := p
    simp only [textOf, String.toList_append] at hrest
    cases kind with
    | none =>
      obtain rfl : text = " " := blank_of_isSound hp rfl
      refine ih (b := b ++ " ".toList) hl hps (by rw [hrest, append_assoc])
        (forall_mem_append.2 ⟨hb, forall_mem_singleton.2 rfl⟩) hfuel h
    | some k =>
      obtain ⟨hnext, hlater⟩ := h
      rw [append_nil, ← slashDivides_eq] at hnext
      obtain ⟨fuel, rfl⟩ := Nat.exists_eq_add_of_lt (Nat.zero_lt_of_lt hfuel)
      obtain ⟨t, l', htoken, hkind, htext, hrest', hcur, -, hl'⟩ :=
        token_exact hl hrest hb hnext (solid_of_isSound hp rfl)
      rw [take_left, joined_of_isSound hp rfl] at htext
      rw [drop_left] at hrest'
      have hpos := (form_of_next? hnext).pos
      have hshort : l'.rest.length < fuel := by
        rw [hrest, length_append, length_append] at hfuel
        rw [hrest']
        omega
      have hdone := ih (b := []) hl' hps hrest' (by simp) hshort (hcur ▸ hlater)
      rw [Nat.zero_add, drainFrom, htoken]
      refine ⟨?_, hdone.2⟩
      rw [map_cons, hdone.1, hkind, String.toList_inj.1 htext]
      rfl

/-- Tokens that are read as they were printed are read one by one. -/
theorem legible_of_drainFrom (hl : l.Plain) (hs : ∀ p ∈ ps, p.isSound) (hrest : l.rest = b ++ (textOf ps).toList)
    (hb : ∀ c ∈ b, isBlank c)
    (h : (drainFrom fuel l).1.map (fun t => (t.kind, t.text)) = tokens ps) :
    Legible (l.cur.map (·.kind)) ps [] := by
  induction ps generalizing l b fuel with
  | nil => trivial
  | cons p ps ih =>
    obtain ⟨hp, hps⟩ := forall_mem_cons.1 hs
    obtain ⟨kind, text, owner⟩ := p
    simp only [textOf, String.toList_append] at hrest
    cases kind with
    | none =>
      obtain rfl : text = " " := blank_of_isSound hp rfl
      refine ih (b := b ++ " ".toList) hl hps (by rw [hrest, append_assoc])
        (forall_mem_append.2 ⟨hb, forall_mem_singleton.2 rfl⟩) h
    | some k =>
      cases fuel with
      | zero => cases h
      | succ fuel =>
        rw [drainFrom] at h
        split at h
        · cases h
        · cases h
        · next t l' htoken =>
          obtain ⟨u, v, n, found⟩ := token_found hl htoken
          obtain ⟨hfirst, hlater⟩ := List.cons.inj h
          cases hfirst
          -- The tokens still to come have all the characters of the pieces still to come, so nothing else
          -- than blanks was passed over, and no line break was taken out of the token.
          have hlast : solid (textOf ps).toList ≤ solid l'.rest := by
            have hdrain := drainFrom_solid fuel found.plain
            rwa [solid_textOf hps, ← hlater, flatMap_map]
          have hsplit : solid v = solid (v.take n) + solid l'.rest := by
            rw [found.rest, ← solid_append, take_append_drop]
          have hsum : solid u + solid v = solid t.text.toList + solid (textOf ps).toList := by
            rw [← solid_append, ← found.text, hrest, solid_append, solid_append, solid_eq_zero_iff.2 hb, Nat.zero_add]
          have hsolid := found.solid
          have hu : ∀ c ∈ u, isBlank c := solid_eq_zero_iff.1 (by omega)
          have htext : b ++ (t.text.toList ++ (textOf ps).toList) = u ++ v := hrest.symm.trans found.text
          rcases found.exact hu with ⟨hsemi, hbreak⟩ | ⟨hnext, hjoined, hcur⟩
          · rw [hsemi] at htext
            obtain ⟨r, rfl⟩ := head?_eq_some_iff.1 hbreak
            have he := eq_of_blanks hb hu ⟨';', (textOf ps).toList, rfl, rfl⟩ ⟨_, r, rfl, rfl⟩ htext
            cases (List.cons.inj he).1
          · have htaken : t.text.toList = v.take n := by
              rw [hjoined]
              refine (solid_joined _ _).2 ?_
              rw [← hjoined]
              omega
            have hlen : t.text.toList.length = n := by
              rw [htaken, length_take_of_le (next?_le hnext (solid_of_isSound hp rfl))]
            have hhead : ∃ c r, t.text.toList ++ (textOf ps).toList = c :: r ∧ isBlank c = false := by
              obtain ⟨c, r, rfl, hc⟩ := (form_of_next? hnext).head
              obtain ⟨m, rfl⟩ := Nat.exists_eq_add_of_lt (form_of_next? hnext).pos
              rw [htaken, Nat.zero_add, take_succ_cons]
              exact ⟨c, _, rfl, hc⟩
            have hv := eq_of_blanks hb hu hhead (form_of_next? hnext).head htext
            refine ⟨?_, ?_⟩
            · rw [append_nil, ← slashDivides_eq, hv, hlen]
              exact hnext
            · have hrest' : l'.rest = (textOf ps).toList := by
                rw [found.rest, ← hv, ← hlen, drop_left]
              have hdone := ih (b := []) found.plain hps hrest' (by simp) hlater
              rwa [hcur] at hdone

end Lexer

/-- A text is split into the tokens that were printed exactly if these can be read back one by one. -/
theorem splitsInto_iff (hs : ∀ p ∈ ps, p.isSound) : SplitsInto (textOf ps) (tokens ps) ↔ Legible none ps [] := by
  have hplain : (({} : Lexer).input (textOf ps)).Plain := ⟨rfl, rfl, rfl⟩
  have hdrain : tokenize (textOf ps) = drainFrom (0 + (textOf ps).toList.length + 1) (({} : Lexer).input (textOf ps)) := rfl
  unfold SplitsInto
  rw [hdrain]
  constructor
  · rintro ⟨htokens, -⟩
    exact legible_of_drainFrom (b := []) hplain hs rfl (by simp) htokens
  · intro h
    refine drainFrom_of_legible (b := []) hplain hs rfl (by simp) ?_ h
    change (textOf ps).toList.length < _
    omega

end JsMinify
