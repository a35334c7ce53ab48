import CallCapture.Fault
import CallCapture.Layout
import CallCapture.Text.Hex

namespace CallCapture

structure PoolId where
  value : UInt32
deriving DecidableEq

namespace PoolId

def first : PoolId := ⟨1⟩

/-- Ids are 32-bit words and wrap around. -/
def next (i : PoolId) : PoolId := ⟨i.value + 1⟩

def text (i : PoolId) : String := s!"pool#{i.value.toNat}"

def debugText (i : PoolId) : String := s!"PoolId({i.value.toNat})"

end PoolId

inductive Ownership
  | application
  | tool (id : PoolId)
deriving DecidableEq

namespace Ownership

def isApplication : Ownership → Bool
  | application => true
  | tool _ => false

def debugText : Ownership → String
  | application => "Application"
  | tool id => s!"Tool({id.debugText})"

end Ownership

def poolAlign : Nat := 16

/-- A pool is known by its place among all pools ever made, as ids may come round again. -/
structure Pool where
  serial : Nat
  id : PoolId
  base : Nat
  size : Nat
deriving DecidableEq

def Pool.debugText (p : Pool) : String :=
  s!"Pool \x7b id: {p.id.debugText}, base: {Text.hex p.base}, size: {p.size} \x7d"

/-- Where a new pool of `size` bytes is placed, given the pools made so far. -/
abbrev PoolPlacement := (made : List Pool) → (size : Nat) → Nat

structure Pools where
  placement : PoolPlacement
  nextId : PoolId
  /-- All pools ever made, the oldest first. -/
  made : List Pool

namespace Pools

def new (placement : PoolPlacement) : Pools := ⟨placement, .first, []⟩

def takeId (ps : Pools) : PoolId × Pools := (ps.nextId, { ps with nextId := ps.nextId.next })

/-- An empty pool owns no memory and lies at its alignment. The id is spent even if the size is refused. -/
def create (ps : Pools) (size : Nat) : Except Fault Pool × Pools :=
  let (id, ps) := ps.takeId
  if maxBlockSize < size + (poolAlign - 1) then (.error (.poolOverflow size), ps)
  else
    let base := if size = 0 then poolAlign else ps.placement ps.made size
    let pool := ⟨ps.made.length, id, base, size⟩
    (.ok pool, { ps with made := ps.made ++ [pool] })

end Pools

end CallCapture
