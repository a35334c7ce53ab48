import CallCapture.Wire.Error

namespace CallCapture

structure Sink where
  written : List UInt8
  limit : Option Nat

namespace Sink

def ofLimit (limit : Option Nat) : Sink := ⟨[], limit⟩

def unbounded : Sink := ofLimit none

def fits (s : Sink) (count : Nat) : Bool :=
  match s.limit with
  | none => true
  | some limit => s.written.length + count ≤ limit

def fill (s : Sink) (bytes : List UInt8) : Sink :=
  match s.limit with
  | none => { s with written := s.written ++ bytes }
  | some limit => { s with written := (s.written ++ bytes).take limit }

end Sink

/-- What was written before a failure stays written. -/
abbrev Encoder := EStateM WireError Sink

namespace Encoder

/-- Of a write that is too long for the limit, what still fits is taken. -/
def put (bytes : List UInt8) : Encoder Unit := fun s =>
  if s.fits bytes.length then .ok () (s.fill bytes) else .error (.io .writeZero) (s.fill bytes)

def fail (e : WireError) : Encoder Unit := throw e

def bytes? (x : Encoder Unit) : Except WireError (List UInt8) :=
  match x.run .unbounded with
  | .ok _ s => .ok s.written
  | .error e _ => .error e

end Encoder

end CallCapture
