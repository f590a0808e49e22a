import Mathlib

/-!
# Scores

A score is a C++ `double`. It is modelled by its 64 bits, since the snapshot file stores
exactly these, with the comparisons IEEE 754 prescribes: a NaN compares false with
everything, and the other values are ordered by sign and magnitude, the two zeros being
equal. `Double.key` is that order, as an integer.
-/

namespace Minired

/-- A `double`, as its bits. -/
structure Double where
  bits : UInt64
deriving DecidableEq

namespace Double

/-- The bits without the sign. -/
def magnitude (x : Double) : UInt64 := x.bits &&& 0x7fffffffffffffff

/-- Exponent all ones and a nonzero fraction. -/
def isNaN (x : Double) : Bool := 0x7ff0000000000000 < x.magnitude

/-- Sign and magnitude as one integer. -/
def key (x : Double) : Int :=
  if x.bits < 0x8000000000000000 then x.magnitude.toNat else -(x.magnitude.toNat : Int)

/-- `x < y`. -/
def lt (x y : Double) : Bool := !x.isNaN && !y.isNaN && decide (x.key < y.key)

/-- `x == y`. -/
def eq (x y : Double) : Bool := !x.isNaN && !y.isNaN && decide (x.key = y.key)

/-- The order of numbers is that of their keys. -/
theorem lt_iff {x y : Double} (hx : x.isNaN = false) (hy : y.isNaN = false) :
    x.lt y = true ↔ x.key < y.key := by
  simp [lt, hx, hy]

/-- Numbers are equal when their keys are. -/
theorem eq_iff {x y : Double} (hx : x.isNaN = false) (hy : y.isNaN = false) :
    x.eq y = true ↔ x.key = y.key := by
  simp [eq, hx, hy]

/-- The score 1. -/
def one : Double := ⟨0x3ff0000000000000⟩

/-- The quiet NaN that `strtod` returns for the text `nan`. -/
def nan : Double := ⟨0x7ff8000000000000⟩

end Double

end Minired
