import CallCapture.Arena.Config
import CallCapture.Layout

namespace CallCapture

/-- Bases of chunks are multiples of this; a stricter request needs padding. -/
def chunkAlign : Nat := 16

structure Chunk where
  base : Nat
  size : Nat
  cursor : Nat
deriving DecidableEq

def Chunk.bump? (c : Chunk) (l : Layout) : Option (Nat × Chunk) :=
  let address := roundUp (c.base + c.cursor) l.align
  let stop := address - c.base + l.size
  if stop ≤ c.size then some (address, { c with cursor := stop }) else none

/-- Where chunks come from: the base of a block of `size` bytes after so many granted and refused requests,
or nothing if this request is refused as well. -/
abbrev ChunkSource := (granted refused size : Nat) → Option Nat

/-- Memory is taken from the end of the newest chunk. Chunks never move and are released by `reset` alone. -/
structure Arena where
  config : ArenaConfig
  source : ChunkSource
  /-- The newest chunk comes first. -/
  chunks : List Chunk
  granted : Nat
  refused : Nat

namespace Arena

def new (config : ArenaConfig) (source : ChunkSource) : Arena := ⟨config, source, [], 0, 0⟩

def used (a : Arena) : Nat := a.chunks.foldr (fun c n => c.cursor + n) 0

def capacity (a : Arena) : Nat := a.chunks.foldr (fun c n => c.size + n) 0

def chunkCount (a : Arena) : Nat := a.chunks.length

def chunkSizeFor (a : Arena) (l : Layout) (needed : Nat) : Except ArenaError Nat :=
  let size := a.config.nextChunkSize (a.chunks.head?.map Chunk.size) needed
  match a.config.maxBytes with
  | none => .ok size
  | some limit =>
    let remaining := limit - a.capacity
    if remaining < needed then .error (.capacityExceeded l.size limit) else .ok (min size remaining)

def obtain? (a : Arena) (size : Nat) : Option Chunk × Arena :=
  let base? := if size + (chunkAlign - 1) ≤ maxBlockSize then a.source a.granted a.refused size else none
  match base? with
  | some base => (some ⟨base, size, 0⟩, { a with granted := a.granted + 1 })
  | none => (none, { a with refused := a.refused + 1 })

def grow (a : Arena) (l : Layout) : Except ArenaError Nat × Arena :=
  let needed := l.size + (l.align - chunkAlign)
  if sizeLimit ≤ needed then (.error (.layoutOverflow 1 l.size), a)
  else
    match a.chunkSizeFor l needed with
    | .error e => (.error e, a)
    | .ok size =>
      match a.obtain? size with
      | (none, a) => (.error (.outOfMemory size), a)
      | (some chunk, a) =>
        match chunk.bump? l with
        | none => (.error (.capacityExceeded l.size size), a)
        | some (address, chunk) => (.ok address, { a with chunks := chunk :: a.chunks })

def bumpNewest? (a : Arena) (l : Layout) : Option (Nat × Arena) :=
  match a.chunks with
  | [] => none
  | chunk :: rest => (chunk.bump? l).map fun (address, chunk) => (address, { a with chunks := chunk :: rest })

/-- The address of fresh memory. An empty block needs none: it lies at its own alignment. -/
def reserve (a : Arena) (l : Layout) : Except ArenaError Nat × Arena :=
  if l.size = 0 then (.ok l.align, a)
  else
    match a.bumpNewest? l with
    | some (address, a) => (.ok address, a)
    | none => a.grow l

def reserveArray (a : Arena) (t : ElementType) (count : Nat) : Except ArenaError Nat × Arena :=
  match Layout.array? t count with
  | none => (.error (.layoutOverflow count t.size), a)
  | some l => a.reserve l

/-- Releases all memory but the newest chunk, which is taken from its start again. -/
def reset (a : Arena) : Arena :=
  { a with chunks := (a.chunks.take 1).map fun c => { c with cursor := 0 } }

end Arena

end CallCapture
