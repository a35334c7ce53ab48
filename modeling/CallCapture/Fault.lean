import CallCapture.Arena.Config

namespace CallCapture

inductive CopySide
  | source
  | destination
deriving DecidableEq

/-- A caller asked for something that no caller may ask for, and the operation stopped. -/
inductive Fault
  | elementIndex (index count : Nat)
  | copyRange (side : CopySide) (start count length : Nat)
  | viewOverflow (count : Nat)
  | poolOverflow (size : Nat)
  | overAligned (align limit : Nat)
  | scratch (e : ArenaError)
  | scratchIndex (length index : Nat)
  | remainderByZero
  | captureOverflow
deriving DecidableEq

def CopySide.text : CopySide → String
  | source => "source"
  | destination => "destination"

def Fault.message : Fault → String
  | elementIndex index count => s!"index {index} out of bounds for slice of {count} elements"
  | copyRange side start count length =>
    s!"{side.text} range {start}+{count} out of bounds for slice of {length} elements"
  | viewOverflow count => s!"slice of {count} elements overflows"
  | poolOverflow size => s!"pool size {size} overflows a valid layout"
  | overAligned align limit => s!"element alignment {align} exceeds pool alignment {limit}"
  | scratch e => s!"scratch allocation failed: {e.message}"
  | scratchIndex length index => s!"index out of bounds: the len is {length} but the index is {index}"
  | remainderByZero => "attempt to calculate the remainder with a divisor of zero"
  | captureOverflow => "capacity overflow"

end CallCapture
