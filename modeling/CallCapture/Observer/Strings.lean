import CallCapture.Observer.Basic
import CallCapture.Text.Lossy

namespace CallCapture

inductive StringError
  | nullPointer
  | unterminated (address : Nat)
deriving DecidableEq

namespace StringError

def operation : String := "CallObserver::string"

def message : StringError → String
  | nullPointer => s!"null pointer passed to {operation}"
  | unterminated address => s!"no terminator after {address}"

end StringError

def characterType : ElementType := .signed .w8

namespace Observer

/-- The text up to the first zero byte; the range registered takes in that byte. -/
def readString (o : Observer) (m : Memory) (address : Nat) : Except StringError String × Observer :=
  if address = 0 then (.error .nullPointer, o.note [.nullString o.commandName])
  else
    match m.distanceToZero address (addressTop + 1 - address) with
    | none => (.error (.unterminated address), o)
    | some length => (.ok (Text.lossy (m.read address length)), o.register .read address (length + 1))

def readStringView (o : Observer) (m : Memory) (v : View characterType) : String × Observer :=
  let bytes := (v.elements m).map fun c : BitVec 8 => UInt8.ofBitVec c
  (Text.lossy bytes, o.registerRegion .read v.region)

end Observer

end CallCapture
