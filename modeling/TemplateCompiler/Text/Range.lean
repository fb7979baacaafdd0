/-!
# Code point ranges

A character class given by a table of ascending, disjoint ranges of code points: by their ends, or
for long tables by the lengths of the runs and of the gaps between them.
-/

namespace TemplateCompiler.Text

/-- Whether a code point lies in one of the ranges of an ascending table. The search ends at the
first range that starts above it. -/
def inRanges : List (Nat × Nat) → Nat → Bool
  | [], _ => false
  | (first, last) :: rest, n => if n < first then false else n ≤ last || inRanges rest n

/-- Whether a code point lies in one of the runs of a table. An entry is the gap between a run and
the end of the one before it, and the length of the run. -/
def inRuns : List (Nat × Nat) → Nat → Bool
  | [], _ => false
  | (gap, length) :: rest, n =>
    if n < gap then false else n < gap + length || inRuns rest (n - (gap + length))

end TemplateCompiler.Text
