/-!
# Ranges of code points

A set of characters is written as a list of ranges, both ends included. The ranges may overlap and come
in any order.
-/

namespace Predictive.Text

/-- Whether the code point `n` lies in one of `ranges`. -/
def inRanges (ranges : List (Nat × Nat)) (n : Nat) : Bool :=
  ranges.any fun r => decide (r.1 ≤ n) && decide (n ≤ r.2)

variable {ranges ranges' : List (Nat × Nat)} {n : Nat}

theorem inRanges_iff : inRanges ranges n = true ↔ ∃ r ∈ ranges, r.1 ≤ n ∧ n ≤ r.2 := by
  simp [inRanges]

@[simp] theorem inRanges_nil : inRanges [] n = false := rfl

@[simp] theorem inRanges_append :
    inRanges (ranges ++ ranges') n = (inRanges ranges n || inRanges ranges' n) := by
  simp [inRanges]

end Predictive.Text
