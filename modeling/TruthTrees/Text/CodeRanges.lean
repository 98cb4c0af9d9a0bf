/-!
# Ranges of code points

A property of characters, given by the first and last code points of its runs.
-/

namespace TruthTrees

abbrev CodeRanges := List (Nat × Nat)

namespace CodeRanges

def covers (ranges : CodeRanges) (c : Char) : Bool :=
  ranges.any fun r => r.1 ≤ c.toNat && c.toNat ≤ r.2

/-- No range is empty, and each starts after a gap behind the one before it. -/
def Ascending (ranges : CodeRanges) : Prop :=
  (∀ r ∈ ranges, r.1 ≤ r.2) ∧ ∀ p ∈ ranges.zip ranges.tail, p.1.2 + 1 < p.2.1

instance (ranges : CodeRanges) : Decidable ranges.Ascending :=
  inferInstanceAs (Decidable (_ ∧ _))

theorem covers_iff {ranges : CodeRanges} {c : Char} :
    ranges.covers c = true ↔ ∃ r ∈ ranges, r.1 ≤ c.toNat ∧ c.toNat ≤ r.2 := by
  simp [covers]

end CodeRanges

end TruthTrees
