import CallCapture.Arena.Basic
import CallCapture.Pool

namespace CallCapture.AddressSpace

def firstPool : Nat := 1 <<< 33

def firstChunk : Nat := 3 <<< 32

def chunkSlot : Nat := 1 <<< 24

def placePool : PoolPlacement := fun made _ =>
  made.foldl (fun a p => if p.size = 0 then a else max a (roundUp (p.base + p.size) poolAlign + poolAlign)) firstPool

/-- A chunk has a slot of its own and starts behind the slot's first 16 bytes; what does not fit is refused. -/
def placeChunk : ChunkSource := fun granted _ size =>
  if size + chunkAlign ≤ chunkSlot then some (firstChunk + granted * chunkSlot + chunkAlign) else none

end CallCapture.AddressSpace
