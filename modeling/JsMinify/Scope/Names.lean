import JsMinify.Token

/-!
# The supply of short names

Short names are the words that pick letters from a list in order: first the single letters, then the
pairs, and so on, each size in the order of the positions picked. A word is known by its positions, a
strictly increasing list; `nextPositions` leads from one word to the next.
-/

namespace JsMinify.Names

/-- The next list of as many increasing positions below `n`, if there is one. -/
def bump (n : Nat) : List Nat → Option (List Nat)
  | [] => none
  | p :: ps =>
    match bump n ps with
    | some qs => some (p :: qs)
    | none => if p + 1 + ps.length < n then some (List.range' (p + 1) (ps.length + 1)) else none

/-- The positions of the word after the one at `ps`. Nothing picked stands before the first word. -/
def nextPositions (n : Nat) (ps : List Nat) : Option (List Nat) :=
  (bump n ps).or (if ps.length < n then some (List.range (ps.length + 1)) else none)

/-- The word that picks the letters at some positions. -/
def wordAt (letters : List String) (ps : List Nat) : String :=
  String.join (ps.map fun p => letters.getD p "")

/-- The next `count` words after the one at `ps`; fewer if they end. -/
def wordsFrom (letters : List String) : Nat → List Nat → List String
  | 0, _ => []
  | count + 1, ps =>
    match nextPositions letters.length ps with
    | none => []
    | some qs => wordAt letters qs :: wordsFrom letters count qs

/-- The words over some letters from number `skip` on, `count` of them or fewer. -/
def words (letters : List String) (skip count : Nat) : List String :=
  (wordsFrom letters (skip + count) []).drop skip

def letters : List String :=
  "abcdefghijklmnopqrstuvwxyzABCDEFGHIJKLMNOPQRSTUVWXYZ$_".toList.map String.singleton

def count : Nat := Nat.pow 2 letters.length - 1

/-- The word is reserved, whatever the case of its letters. -/
def isReserved (word : String) : Bool :=
  (TokenKind.reserved.lookup (word.map Char.toLower)).isSome

end JsMinify.Names
