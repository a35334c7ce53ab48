import CallCapture.AddressSpace
import CallCapture.Names
import CallCapture.Observer.Strings
import CallCapture.Observer.Views

namespace CallCapture

structure TypedView where
  elem : ElementType
  view : View elem

def TypedView.at? (v : TypedView) (t : ElementType) : Option (View t) :=
  if h : v.elem = t then some (h ▸ v.view) else none

structure Session where
  observer : Observer
  process : Process
  sparse : Memory
  /-- What captures read, given the memory of the process and the sparse memory. -/
  readerOf : Memory → Memory → Reader
  views : Names TypedView
  pools : Names Pool
  captured : List Observation

namespace Session

def new (config : ObserverConfig) (readerOf : Memory → Memory → Reader) (placement : PoolPlacement)
    (source : ChunkSource) : Session where
  observer := .new config source
  process := ⟨.zero, .new placement⟩
  sparse := .zero
  readerOf := readerOf
  views := .empty
  pools := .empty
  captured := []

def reader (s : Session) : Reader := s.readerOf s.process.memory s.sparse

def tags (s : Session) : List UInt8 := s.observer.extras.items.map AttachedExtra.tag

/-- A pool lives while a view, a name or the observer holds it. -/
def holds (s : Session) (p : Pool) : Bool :=
  (s.views.values.any fun v => v.view.backing = some p) || s.pools.values.contains p ||
    s.observer.retained.contains p

def alive (s : Session) : List Pool := s.process.pools.made.filter s.holds

end Session

end CallCapture
