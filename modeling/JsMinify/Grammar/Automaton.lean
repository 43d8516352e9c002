import JsMinify.Grammar.Table

/-!
# Reading the tables

`Table.move` is the move of the automaton in a state before a token or the end of the text.
`Table.forced?` names the rule of a state whose row holds a single entry, a reduction: it is made
without looking at what follows. Both are irreducible: proofs open the tables by finite checks only.
-/

namespace JsMinify.Grammar

/-- A move of the automaton. -/
inductive Move where
  | shift (s : State)
  | reduce (rule : Nat)
  | accept
  deriving DecidableEq, Repr

/-- The token, or the end of the text, is in the set. -/
def Lookahead.allows (la : Lookahead) : Option TokenKind → Bool
  | none => la.atEnd
  | some k => la.kinds.contains k

/-- The number of entries that a set makes in a row. -/
def Lookahead.size (la : Lookahead) : Nat := la.kinds.length + if la.atEnd then 1 else 0

namespace Table

/-- The rule with a number, counted through some groups. -/
def ruleIn : List (List Rule) → Nat → Option Rule
  | [], _ => none
  | g :: gs, i => if i < g.length then g[i]? else ruleIn gs (i - g.length)

@[irreducible] def rule? (i : Nat) : Option Rule := ruleIn ruleGroups i

def shifts (s : State) : List (TokenKind × State) := shiftLists.getD (row s).1 []

/-- The reductions of a state: before what, and by which rule. -/
def reductions (s : State) : List (Lookahead × Nat) :=
  (row s).2.map fun r => (lookaheads.getD r.1 ⟨false, []⟩, r.2)

/-- The rule that a state reduces by, whatever follows. -/
@[irreducible] def forced? (s : State) : Option Nat :=
  match shifts s, reductions s with
  | [], [(la, rule)] => if la.size = 1 then some rule else none
  | _, _ => none

/-- The move in a state before a kind of token, or before the end of the text. -/
@[irreducible] def move (s : State) (k : Option TokenKind) : Option Move :=
  match k.bind fun k => (shifts s).lookup k with
  | some t => some (.shift t)
  | none =>
    if s = acceptState && k.isNone then some .accept
    else ((reductions s).find? fun r => r.1.allows k).map fun r => .reduce r.2

end Table

end JsMinify.Grammar
