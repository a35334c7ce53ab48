import CallCapture.Memory
import CallCapture.Pool

namespace CallCapture

/-- A view without its element type: what an observer needs to know of the memory. -/
structure Region where
  base : Nat
  byteLength : Nat
  owner : Ownership
  backing : Option Pool

/-- A view over a pool holds a share of it; a borrowed view holds nothing. -/
structure View (t : ElementType) where
  base : Nat
  count : Nat
  owner : Ownership
  backing : Option Pool

namespace View

variable {t : ElementType}

def byteLength (v : View t) : Nat := v.count * t.size

def region (v : View t) : Region := ⟨v.base, v.byteLength, v.owner, v.backing⟩

def borrow (t : ElementType) (owner : Ownership) (base count : Nat) : View t := ⟨base, count, owner, none⟩

def overPool (t : ElementType) (pool : Pool) (count : Nat) : Except Fault (View t) :=
  if poolAlign < t.align then .error (.overAligned t.align poolAlign)
  else .ok ⟨pool.base, count, .tool pool.id, some pool⟩

/-- As many elements as the pool has room for; an empty type has none. -/
def ofPool (t : ElementType) (pool : Pool) : Except Fault (View t) := overPool t pool (pool.size / t.size)

def elementAddress (v : View t) (index : Nat) : Except Fault Nat :=
  if index < v.count then .ok (v.base + index * t.size) else .error (.elementIndex index v.count)

def element (v : View t) (m : Memory) (index : Nat) : t.Value := t.decode (m.read (v.base + index * t.size) t.size)

def get (v : View t) (m : Memory) (index : Nat) : Except Fault t.Value := do
  let address ← v.elementAddress index
  pure (t.decode (m.read address t.size))

def set (v : View t) (m : Memory) (index : Nat) (value : t.Value) : Except Fault Memory := do
  let address ← v.elementAddress index
  pure (m.write address (t.encode value))

def elements (v : View t) (m : Memory) : List t.Value := (List.range v.count).map (v.element m)

/-- Copies `count` elements as they were before the copy, wherever the two ranges lie. -/
def copyTo (v dst : View t) (m : Memory) (start count dstStart : Nat) : Except Fault Memory :=
  if v.count < start + count then .error (.copyRange .source start count v.count)
  else if dst.count < dstStart + count then .error (.copyRange .destination dstStart count dst.count)
  else .ok (m.write (dst.base + dstStart * t.size) (m.read (v.base + start * t.size) (count * t.size)))

def debugText (v : View t) : String :=
  s!"Slice \x7b base: {Text.hex v.base}, count: {v.count}, kind: {v.owner.debugText} \x7d"

end View

end CallCapture
