namespace CallCapture

structure ArenaConfig where
  chunkSize : Nat
  maxBytes : Option Nat
deriving DecidableEq

namespace ArenaConfig

/-- Doubling stops here; only a large request or a large `chunkSize` gives a larger chunk. -/
def growthLimit : Nat := 1 <<< 20

def standard : ArenaConfig := ⟨4096, none⟩

def nextChunkSize (c : ArenaConfig) (previous : Option Nat) (needed : Nat) : Nat :=
  let grown := match previous with
    | some size => min (2 * size) growthLimit
    | none => c.chunkSize
  max (max grown c.chunkSize) needed

end ArenaConfig

inductive ArenaError
  | capacityExceeded (requested capacity : Nat)
  | layoutOverflow (count elementSize : Nat)
  | outOfMemory (bytes : Nat)
deriving DecidableEq

def ArenaError.message : ArenaError → String
  | capacityExceeded requested capacity =>
    s!"arena capacity exceeded: requested {requested} bytes, capacity {capacity} bytes"
  | layoutOverflow count elementSize => s!"allocation of {count} elements of {elementSize} bytes overflows"
  | outOfMemory bytes => s!"allocator failed to provide a {bytes}-byte chunk"

end CallCapture
