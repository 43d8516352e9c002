/-!
# Sets of characters as ranges of code points

A `Ranges` value lists closed ranges of code points; `Ranges.ofRuns` reads a long one from its gaps and
lengths. `Ranges.contains` is membership, with the characterisation `Ranges.contains_iff`.
-/

namespace JsMinify.Text

/-- Closed ranges of code points, in increasing order. -/
abbrev Ranges := List (Nat × Nat)

/-- The ranges that a list of lengths stands for: so many code points are left out, so many are held,
and so on in turn, from a first one on. -/
def Ranges.ofRuns (first : Nat) : List Nat → Ranges
  | skip :: length :: runs => (first + skip, first + skip + length - 1) :: ofRuns (first + skip + length) runs
  | _ => []

/-- Some range holds the character. -/
def Ranges.contains (rs : Ranges) (c : Char) : Bool :=
  rs.any fun r => r.1 ≤ c.toNat && c.toNat ≤ r.2

theorem Ranges.contains_iff {rs : Ranges} {c : Char} :
    rs.contains c = true ↔ ∃ r ∈ rs, r.1 ≤ c.toNat ∧ c.toNat ≤ r.2 := by
  simp [Ranges.contains]

end JsMinify.Text
