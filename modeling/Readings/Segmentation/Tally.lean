import Readings.Segmentation.Report

/-!
# Counting decompositions

How many lines of a text are blank, can be cut into words, can be cut in several ways or
not at all, and how many ways there are.
-/

namespace Readings.Segmentation

/-- The counts over the lines of a text. -/
structure Tally where
  lines : Nat
  blank : Nat
  segmented : Nat
  /-- The number of lines with several decompositions. -/
  ambiguous : Nat
  /-- The number of lines that are not blank and have no decomposition. -/
  unsegmented : Nat
  decompositions : Nat
  maxPerLine : Nat

/-- The counts over the reports. -/
def Tally.ofReports (reports : List Report) : Tally :=
  let counts := (reports.filter (!·.isBlank)).map (·.decompositions.length)
  { lines := reports.length
    blank := reports.countP (·.isBlank)
    segmented := counts.countP (1 ≤ ·)
    ambiguous := counts.countP (2 ≤ ·)
    unsegmented := counts.count 0
    decompositions := counts.foldl (· + ·) 0
    maxPerLine := counts.foldl max 0 }

end Readings.Segmentation
