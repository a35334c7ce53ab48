import CallCapture.Coverage
import CallCapture.Fault

namespace CallCapture.Workload

def strided (base count length stride : Nat) : List (Nat × Nat) :=
  (List.range count).map fun i => (base + i * stride, length)

def coalescing (base count length : Nat) : List (Nat × Nat) := strided base count length length

/-- One step of a linear congruential generator modulo `2 ^ 64`. -/
def advance (state : UInt64) : UInt64 := state * 6364136223846793005 + 1442695040888963407

def draw (state : UInt64) : Nat := (state >>> 33).toNat

def scattered (span maxLength : Nat) : (count : Nat) → (state : UInt64) → List (Nat × Nat)
  | 0, _ => []
  | count + 1, state =>
    let first := advance state
    let second := advance first
    (draw first % span, draw second % maxLength + 1) :: scattered span maxLength count second

def scrambled (count span maxLength : Nat) (seed : UInt64) : Except Fault (List (Nat × Nat)) :=
  if 0 < count ∧ (span = 0 ∨ maxLength = 0) then .error .remainderByZero
  else .ok (scattered span maxLength count seed)

end CallCapture.Workload
