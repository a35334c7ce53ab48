import CallCapture.Arena.Basic
import CallCapture.Observation
import CallCapture.Pool

namespace CallCapture

inductive Event
  | poolCreated (id : PoolId) (size : Nat)
  | scratchGrew (chunkBytes chunkCount : Nat)
  | rangeRegistered (base size : Nat) (phase : Phase)
  | recordAttached (command : Option String) (index : Nat)
  /-- A capture into the record, or with no phase into a list of the caller's. -/
  | captured (phase : Option Phase) (intervals bytes : Nat)
  | nullString (command : Option String)
deriving DecidableEq

inductive Level
  | trace
  | debug
  | warn
deriving DecidableEq

def Level.text : Level → String
  | trace => "TRACE"
  | debug => "DEBUG"
  | warn => "WARN"

namespace Event

def level : Event → Level
  | poolCreated .. | scratchGrew .. | rangeRegistered .. => .trace
  | recordAttached .. | captured .. => .debug
  | nullString .. => .warn

def message : Event → String
  | poolCreated .. => "tool pool created"
  | scratchGrew .. => "scratch arena grew"
  | rangeRegistered .. => "pending range registered"
  | recordAttached .. => "observations record attached"
  | captured .. => "observations materialized"
  | nullString .. => "null string pointer"

def commandText (command : Option String) : String := command.getD "<unnamed>"

/-- The pools that came into being between two states; empty ones own no memory and are not logged. -/
def ofPools (before after : Pools) : List Event :=
  ((after.made.drop before.made.length).filter fun p => p.size ≠ 0).map fun p => poolCreated p.id p.size

def ofArena (before after : Arena) : List Event :=
  if before.chunkCount < after.chunkCount then
    after.chunks.head?.toList.map fun c => scratchGrew c.size after.chunkCount
  else []

def fields : Event → List (String × String)
  | poolCreated id size => [("id", id.text), ("size", toString size)]
  | scratchGrew chunkBytes chunkCount => [("chunk_bytes", toString chunkBytes), ("chunk_count", toString chunkCount)]
  | rangeRegistered base size phase => [("base", toString base), ("size", toString size), ("phase", phase.text)]
  | recordAttached command index => [("command", commandText command), ("extra_index", toString index)]
  | captured phase intervals bytes =>
    [("phase", (phase.map Phase.text).getD "observe"), ("intervals", toString intervals), ("bytes", toString bytes)]
  | nullString command => [("command", commandText command)]

end Event

end CallCapture
