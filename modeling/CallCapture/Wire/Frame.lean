import CallCapture.Wire.Record

namespace CallCapture

structure Extra where
  tag : UInt8
  encode : Encoder Unit

namespace Extra

def ofBytes (tag : UInt8) (payload : List UInt8) : Extra := ⟨tag, .put payload⟩

def ofRecord (r : Record) : Extra := ⟨recordTag, .record r⟩

def failing (tag : UInt8) (payload : List UInt8) (e : WireError) : Extra :=
  ⟨tag, do .put payload; .fail e⟩

/-- The payload is written aside first, so a payload that cannot be written leaves nothing in the sink. -/
def frame (x : Extra) : Encoder Unit := do
  let payload ← MonadExcept.ofExcept x.encode.bytes?
  .put [x.tag]
  .length .payload payload.length
  .put payload

end Extra

structure Frame where
  tag : UInt8
  payload : List UInt8
deriving DecidableEq

namespace Decoder

def frame? : Decoder (Option Frame) := do
  match ← byte? with
  | none => pure none
  | some tag =>
    let ⟨payload, _⟩ ← declared .payload (← word 4)
    pure (some ⟨tag, payload⟩)

def wholeRecord (payload : List UInt8) : Except WireError Record :=
  match record.run (.ofBytes payload) with
  | .error e _ => .error e
  | .ok r s => if s.unread.length ≠ 0 then .error (.malformed (.trailing s.unread.length)) else .ok r

/-- A frame that has to be a record's. The whole frame is consumed before its payload is looked at. -/
def framedRecord : Decoder Record := do
  let tag := (← exactly 1).headD 0
  if tag ≠ recordTag then throw (.unknownTag tag)
  let ⟨payload, _⟩ ← declared .payload (← word 4)
  MonadExcept.ofExcept (wholeRecord payload)

end Decoder

abbrev FrameOutcome := Except WireError (Option Frame)

namespace Source

def nextFrame (s : Source) : FrameOutcome × Source :=
  match Decoder.frame?.run s with
  | .ok f t => (.ok f, t)
  | .error e t => (.error e, t)

def attempts : (count : Nat) → Source → List FrameOutcome × Source
  | 0, s => ([], s)
  | count + 1, s =>
    let (outcome, t) := s.nextFrame
    let (outcomes, u) := attempts count t
    (outcome :: outcomes, u)

def framesWithin : (bound : Nat) → Source → List FrameOutcome × Source
  | 0, s => ([], s)
  | bound + 1, s =>
    match s.nextFrame with
    | (.ok (some f), t) =>
      let (outcomes, u) := framesWithin bound t
      (.ok (some f) :: outcomes, u)
    | (outcome, t) => ([outcome], t)

/-- Frames until the data end or an attempt fails. A frame takes bytes, so the bound is never reached. -/
def frames (s : Source) : List FrameOutcome × Source := framesWithin (s.unread.length + 1) s

end Source

end CallCapture
