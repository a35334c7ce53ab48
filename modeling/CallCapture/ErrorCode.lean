import CallCapture.Text.Hex

namespace CallCapture

structure ErrorCode where
  value : UInt32
deriving DecidableEq, Inhabited

namespace ErrorCode

def noError : ErrorCode := ⟨0⟩

def isNoError (c : ErrorCode) : Bool := c = noError

def compare (c d : ErrorCode) : Ordering := Ord.compare c.value.toNat d.value.toNat

def text (c : ErrorCode) : String := Text.hex c.value.toNat 6

def debugText (c : ErrorCode) : String := s!"ErrorCode({c.value.toNat})"

end ErrorCode

end CallCapture
