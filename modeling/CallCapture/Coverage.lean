import CallCapture.Fault
import CallCapture.Layout
import CallCapture.Memory
import CallCapture.Observation

namespace CallCapture

@[ext] structure AddressRange where
  start : Nat
  stop : Nat
  start_lt_stop : start < stop
  stop_le : stop ≤ addressTop
deriving DecidableEq

namespace AddressRange

/-- The addresses `start ≤ a < start + length` below the top, unless there are none. -/
def ofLength? (start length : Nat) : Option AddressRange :=
  if h : start < min (start + length) addressTop then
    some ⟨start, min (start + length) addressTop, h, Nat.min_le_right ..⟩
  else none

def length (r : AddressRange) : Nat := r.stop - r.start

def Contains (r : AddressRange) (a : Nat) : Prop := r.start ≤ a ∧ a < r.stop

def hull (r s : AddressRange) : AddressRange where
  start := min r.start s.start
  stop := max r.stop s.stop
  start_lt_stop := by have := r.start_lt_stop; omega
  stop_le := by have := r.stop_le; have := s.stop_le; omega

def fits (r : AddressRange) : Bool := r.length ≤ maxBlockSize

def capture (reader : Reader) (r : AddressRange) : Observation where
  address := UInt64.ofNat r.start
  bytes := reader.bytes r.start r.length
  length_le := by
    have := r.stop_le
    rw [reader.length_bytes, length]
    omega

end AddressRange

/-- Ranges in ascending order. `insert` keeps a gap between neighbours, so that a set has one list. -/
structure Coverage where
  ranges : List AddressRange
deriving DecidableEq

namespace Coverage

def empty : Coverage := ⟨[]⟩

/-- Joins `r` with the last of the ranges before it, the only one of them that can reach it. -/
def joinLast (before : List AddressRange) (r : AddressRange) : List AddressRange × AddressRange :=
  match before.getLast? with
  | none => (before, r)
  | some s => if s.stop < r.start then (before, r) else (before.dropLast, r.hull s)

/-- Joins `r` with the ranges after it that begin no later than `r` itself stops. -/
def joinFirst (r : AddressRange) (after : List AddressRange) : List AddressRange :=
  (after.takeWhile (·.start ≤ r.stop)).foldl AddressRange.hull r :: after.dropWhile (·.start ≤ r.stop)

def join (r : AddressRange) (l : List AddressRange) : List AddressRange :=
  let (before, r') := joinLast (l.takeWhile (·.start ≤ r.start)) r
  before ++ joinFirst r' (l.dropWhile (·.start ≤ r.start))

def insert (c : Coverage) (start length : Nat) : Coverage :=
  match AddressRange.ofLength? start length with
  | none => c
  | some r => ⟨join r c.ranges⟩

def insertAll (c : Coverage) (l : List (Nat × Nat)) : Coverage := l.foldl (fun c p => c.insert p.1 p.2) c

def ofList (l : List (Nat × Nat)) : Coverage := empty.insertAll l

def isEmpty (c : Coverage) : Bool := c.ranges.isEmpty

def count (c : Coverage) : Nat := c.ranges.length

def totalBytes (c : Coverage) : Nat := c.ranges.foldr (fun r n => r.length + n) 0

/-- One observation per range, in ascending order, up to the first range that is too long for one. -/
def capture (c : Coverage) (reader : Reader) : List Observation :=
  (c.ranges.takeWhile AddressRange.fits).map (AddressRange.capture reader)

def captureFault? (c : Coverage) : Option Fault :=
  if c.ranges.all AddressRange.fits then none else some .captureOverflow

instance : Membership Nat Coverage := ⟨fun c a => ∃ r ∈ c.ranges, r.Contains a⟩

def Canonical (c : Coverage) : Prop := c.ranges.Pairwise fun r s => r.stop < s.start

end Coverage

end CallCapture
