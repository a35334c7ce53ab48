import CallCapture.Element

namespace CallCapture

/-- Sizes are counted in words of 64 bits. -/
def sizeLimit : Nat := 1 <<< 64

def maxBlockSize : Nat := (1 <<< 63) - 1

/-- Rounded up to its alignment, a block stays within the largest size. -/
structure Layout where
  size : Nat
  alignLog : Nat
  size_le : size + ((1 <<< alignLog) - 1) ≤ maxBlockSize

namespace Layout

def align (l : Layout) : Nat := 1 <<< l.alignLog

def ofSize? (size alignLog : Nat) : Option Layout :=
  if h : size + ((1 <<< alignLog) - 1) ≤ maxBlockSize then some ⟨size, alignLog, h⟩ else none

def array? (t : ElementType) (count : Nat) : Option Layout := ofSize? (count * t.size) t.alignLog

def unit : Layout := ⟨0, 0, by decide⟩

end Layout

def roundUp (a n : Nat) : Nat := (a + n - 1) / n * n

end CallCapture
