namespace CallCapture

inductive IoError
  | unexpectedEnd
  | writeZero
  | interrupted
  | timedOut
  | other (text : String)
deriving DecidableEq

def IoError.message : IoError → String
  | unexpectedEnd => "failed to fill whole buffer"
  | writeZero => "failed to write whole buffer"
  | interrupted => "interrupted"
  | timedOut => "device failure"
  | other text => text

inductive Part
  | payload
  | list
  | observation
deriving DecidableEq

def Part.text : Part → String
  | payload => "extra payload"
  | list => "observation list"
  | observation => "observation"

inductive Malformed
  | tooLong (part : Part) (length : Nat)
  | truncated (part : Part) (declared found : Nat)
  | trailing (count : Nat)
  | other (text : String)
deriving DecidableEq

def Malformed.message : Malformed → String
  | tooLong part length => s!"{part.text} length {length} exceeds u32::MAX"
  | truncated part declared found => s!"{part.text} declares {declared} bytes but only {found} follow"
  | trailing count => s!"{count} trailing bytes after observations"
  | other text => text

inductive WireError
  | io (cause : IoError)
  | unknownTag (tag : UInt8)
  | malformed (detail : Malformed)
deriving DecidableEq

namespace WireError

def message : WireError → String
  | io cause => s!"I/O error: {cause.message}"
  | unknownTag tag => s!"unknown extra tag {tag.toNat}"
  | malformed detail => s!"malformed extra: {detail.message}"

def cause? : WireError → Option IoError
  | io cause => some cause
  | _ => none

end WireError

end CallCapture
