import Mathlib.Data.List.Range

/-!
# `storage/limits.ts`: the plan of a multipart upload

S3 takes at most 10 000 parts, each but the last of at least 5 MiB. The part size is
*computed* from the file's size, not a constant: a fixed size fails for large files.

Sizes are integers far below 2⁵³, where a quotient rounds to the same ceiling, so
`Math.ceil` of a quotient is the ceiling of the exact one.
-/

namespace Marketplace

/-- `MIB` -/
def mib : ℕ := 1024 * 1024

/-- `GIB` -/
def gib : ℕ := 1024 * mib

/-- `MIN_PART` -/
def minPart : ℕ := 5 * mib

/-- `MAX_PART` -/
def maxPart : ℕ := 5 * gib

/-- `MAX_PARTS` -/
def maxParts : ℕ := 10000

/-- `MAX_OBJECT` -/
def maxObject : ℕ := 5 * 1024 * gib

/-- `Math.ceil(a / b)` -/
def ceilDiv : ℕ → ℕ → ℕ
  | 0, _ => 0
  | a + 1, b => a / b + 1

/-- The part size of a file: at least `MIN_PART` and a 10 000th of the file, rounded
up to whole MiB; `none` is the RangeError. -/
def computePartSize (size : ℕ) : Option ℕ :=
  let needed := ceilDiv size maxParts
  let rounded := mib * ceilDiv needed mib
  let part := max minPart rounded
  if maxPart < part then none else some part

/-- `Math.ceil(size / partSize)` -/
def partCount (size partSize : ℕ) : ℕ := ceilDiv size partSize

/-- The length of the `n`-th part, from 1: all are equal, the last is the rest. -/
def partLength (size partSize n : ℕ) : ℤ := min (partSize : ℤ) (size - (n - 1) * partSize)

/-- The numbers of the planned parts. -/
def partNumbers (size partSize : ℕ) : List ℕ := List.range' 1 (partCount size partSize)

end Marketplace
