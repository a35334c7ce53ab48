import CallCapture.Proofs.Wire.Payload
import CallCapture.Word.Lemmas

namespace CallCapture

namespace Sink

def taken (limit : Option Nat) (bytes : List UInt8) : List UInt8 :=
  match limit with
  | none => bytes
  | some n => bytes.take n

/-- How writing so many bytes ends, if it ends with `own` where there is no limit. -/
def verdict (limit : Option Nat) (count : Nat) (own : Option WireError) : Option WireError :=
  match limit with
  | none => own
  | some n => if n < count then some (.io .writeZero) else own

end Sink

namespace Encoder

open Sink

def outcome (x : Encoder Unit) (limit : Option Nat) : List UInt8 × Option WireError :=
  match x.run (.ofLimit limit) with
  | .ok _ s => (s.written, none)
  | .error e s => (s.written, some e)

end Encoder

namespace Extra

structure Framed (x : Extra) (f : Frame) : Prop where
  tag : f.tag = x.tag
  payload : x.encode.bytes? = .ok f.payload
  counted : f.payload.length < 2 ^ 32

theorem Framed.frame_eq_put {x : Extra} {f : Frame} (h : x.Framed f) : x.frame = .put f.wire := by
  rw [Encoder.frame_eq_put h.payload h.counted, ← h.tag]

end Extra

namespace Encoder

open Extra Sink

end Encoder

theorem Observation.length_wireList (os : List Observation) :
    (wireList os).length = 4 + (16 * os.length + totalBytes os) := by
  have hflat : (os.flatMap wire).length = 16 * os.length + totalBytes os := by
    induction os with
    | nil => rfl
    | cons o os ih =>
        simp only [List.flatMap_cons, List.length_append, ih, wire, Word.length_encode, List.length_cons, totalBytes,
          List.foldr_cons, Observation.length]
        omega
  rw [wireList, List.length_append, Word.length_encode, hflat]

theorem Record.length_wire (r : Record) :
    r.wire.length = 8 + 16 * (r.reads.length + r.writes.length) + r.totalBytes := by
  rw [wire, List.length_append, Observation.length_wireList, Observation.length_wireList, totalBytes]
  omega

namespace Encoder

open Sink

end Encoder

end CallCapture
