import CallCapture.View

namespace CallCapture

structure Process where
  memory : Memory
  pools : Pools

namespace Process

def takeId (p : Process) : PoolId × Process :=
  let (id, pools) := p.pools.takeId
  (id, { p with pools })

def clear (m : Memory) (pool : Pool) : Memory := m.overlay pool.base pool.size .zero

def createPool (p : Process) (size : Nat) : Except Fault Pool × Process :=
  match p.pools.create size with
  | (.error f, pools) => (.error f, { p with pools })
  | (.ok pool, pools) => (.ok pool, ⟨clear p.memory pool, pools⟩)

/-- A view of `count` zeros over a pool of its own. A pool that cannot be viewed so is given up at once. -/
def make (p : Process) (t : ElementType) (count : Nat) : Except Fault (View t) × Process :=
  if sizeLimit ≤ count * t.size then (.error (.viewOverflow count), p)
  else
    match p.pools.create (count * t.size) with
    | (.error f, pools) => (.error f, { p with pools })
    | (.ok pool, pools) =>
      match View.overPool t pool count with
      | .error f => (.error f, { p with pools })
      | .ok v => (.ok v, ⟨clear p.memory pool, pools⟩)

end Process

end CallCapture
