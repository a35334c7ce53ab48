import CallCapture.Observation
import CallCapture.Word
import CallCapture.Wire.Sink
import CallCapture.Wire.Source

namespace CallCapture

def recordTag : UInt8 := 1

namespace Encoder

def word (width n : Nat) : Encoder Unit := put (Word.encode width n)

def length (part : Part) (n : Nat) : Encoder Unit :=
  if n < 1 <<< 32 then word 4 n else fail (.malformed (.tooLong part n))

def observation (o : Observation) : Encoder Unit := do
  word 8 o.address.toNat
  word 8 o.length
  put o.bytes

def observations (os : List Observation) : Encoder Unit := do
  length .list os.length
  os.forM observation

def record (r : Record) : Encoder Unit := do
  observations r.reads
  observations r.writes

end Encoder

namespace Decoder

def word (width : Nat) : Decoder Nat := Word.decode <$> exactly width

def word64 : Decoder UInt64 := UInt64.ofNat <$> word 8

def observation : Decoder Observation := do
  let address ← word64
  let length ← word64
  let ⟨bytes, h⟩ ← declared .observation length.toNat
  pure ⟨address, bytes, h ▸ toNat_le_addressTop length⟩

def observations : (count : Nat) → Decoder (List Observation)
  | 0 => pure []
  | count + 1 => do
    let o ← observation
    let rest ← observations count
    pure (o :: rest)

def record : Decoder Record := do
  let reads ← observations (← word 4)
  let writes ← observations (← word 4)
  pure ⟨reads, writes⟩

end Decoder

end CallCapture
