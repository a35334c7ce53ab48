namespace CallCapture

/-- The last address. The end of a range is itself an address, so no range takes in the last byte. -/
def addressTop : Nat := (1 <<< 64) - 1

theorem toNat_le_addressTop (u : UInt64) : u.toNat ≤ addressTop := Nat.le_sub_one_of_lt u.toNat_lt

def Text.list (items : List String) : String := "[" ++ ", ".intercalate items ++ "]"

/-- Bytes copied from `address` on. No range of memory is as long as the address space. -/
structure Observation where
  address : UInt64
  bytes : List UInt8
  length_le : bytes.length ≤ addressTop
deriving DecidableEq

namespace Observation

def length (o : Observation) : Nat := o.bytes.length

def isEmpty (o : Observation) : Bool := o.bytes.isEmpty

/-- The address after the last byte, or the last address where that would be too high. -/
def stop (o : Observation) : Nat := min (o.address.toNat + o.length) addressTop

def totalBytes (os : List Observation) : Nat := os.foldr (fun o n => o.length + n) 0

def debugText (o : Observation) : String :=
  let bytes := Text.list (o.bytes.map fun b => toString b.toNat)
  s!"Observation \x7b address: {o.address.toNat}, bytes: {bytes} \x7d"

end Observation

/-- The half of a call that a registered range belongs to. -/
inductive Phase
  | read
  | write
deriving DecidableEq

def Phase.text : Phase → String
  | read => "read"
  | write => "write"

structure Record where
  reads : List Observation
  writes : List Observation
deriving DecidableEq

namespace Record

def empty : Record := ⟨[], []⟩

def append (r : Record) (phase : Phase) (os : List Observation) : Record :=
  match phase with
  | .read => { r with reads := r.reads ++ os }
  | .write => { r with writes := r.writes ++ os }

def isEmpty (r : Record) : Bool := r.reads.isEmpty && r.writes.isEmpty

def totalBytes (r : Record) : Nat := Observation.totalBytes r.reads + Observation.totalBytes r.writes

def debugText (r : Record) : String :=
  let reads := Text.list (r.reads.map Observation.debugText)
  let writes := Text.list (r.writes.map Observation.debugText)
  s!"Observations \x7b reads: {reads}, writes: {writes} \x7d"

end Record

end CallCapture
