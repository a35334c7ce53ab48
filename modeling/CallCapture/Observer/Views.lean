import CallCapture.Observer.Basic
import CallCapture.Process

namespace CallCapture.Observer

variable {t : ElementType}

def readElement (o : Observer) (m : Memory) (v : View t) (index : Nat) : Except Fault t.Value × Observer :=
  match v.get m index with
  | .error f => (.error f, o)
  | .ok value => (.ok value, if o.observes v.owner then o.register .read (v.base + index * t.size) t.size else o)

/-- What is observed the call is going to write itself, so it is registered and left alone. -/
def writeElement (o : Observer) (m : Memory) (v : View t) (index : Nat) (value : t.Value) :
    Except Fault (Observer × Memory) :=
  if o.observes v.owner then (v.elementAddress index).map fun address => (o.register .write address t.size, m)
  else (v.set m index value).map fun m => (o, m)

/-- As many elements as both views have are copied, unless the call will write them. -/
def copy (o : Observer) (m : Memory) (dst src : View t) : Except Fault (View t) × Observer × Memory :=
  let o := o.registerRegion .read src.region
  if o.observes dst.owner then (.ok dst, o, m)
  else
    match src.copyTo dst m 0 (min src.count dst.count) 0 with
    | .error f => (.error f, o, m)
    | .ok m => (.ok dst, o, m)

def cloneView (o : Observer) (p : Process) (src : View t) : Except Fault (View t) × Observer × Process :=
  let (made, q) := p.make t src.count
  let o := o.note (Event.ofPools p.pools q.pools)
  match made with
  | .error f => (.error f, o, q)
  | .ok dst =>
    let (result, o, memory) := o.copy q.memory dst src
    (result, o, { q with memory })

end CallCapture.Observer
