namespace CallCapture

@[ext] structure Memory where
  byteAt : Nat → UInt8

namespace Memory

def zero : Memory := ⟨fun _ => 0⟩

/-- Every byte is the low byte of its own address. -/
def pattern : Memory := ⟨fun a => UInt8.ofNat a⟩

def read (m : Memory) (base length : Nat) : List UInt8 :=
  (List.range length).map fun i => m.byteAt (base + i)

def write (m : Memory) (base : Nat) (bytes : List UInt8) : Memory :=
  let block := bytes.toArray
  ⟨fun a => if base ≤ a then block.getD (a - base) (m.byteAt a) else m.byteAt a⟩

def overlay (m : Memory) (base length : Nat) (other : Memory) : Memory :=
  ⟨fun a => if base ≤ a ∧ a < base + length then other.byteAt a else m.byteAt a⟩

def distanceToZero (m : Memory) (base : Nat) : (bound : Nat) → Option Nat
  | 0 => none
  | bound + 1 => if m.byteAt base = 0 then some 0 else (m.distanceToZero (base + 1) bound).map (· + 1)

@[simp] theorem length_read (m : Memory) (base length : Nat) : (m.read base length).length = length := by
  simp [read]

theorem getElem?_read (m : Memory) (base length i : Nat) :
    (m.read base length)[i]? = if i < length then some (m.byteAt (base + i)) else none := by
  by_cases h : i < length <;> simp [read, h]

theorem byteAt_write (m : Memory) (base : Nat) (bytes : List UInt8) (a : Nat) :
    (m.write base bytes).byteAt a = if base ≤ a then bytes[a - base]?.getD (m.byteAt a) else m.byteAt a := by
  simp [write]

theorem byteAt_write_of_lt (m : Memory) (base : Nat) (bytes : List UInt8) {i : Nat} (h : i < bytes.length) :
    (m.write base bytes).byteAt (base + i) = bytes[i] := by
  simp [byteAt_write, h]

theorem byteAt_write_of_outside (m : Memory) {base : Nat} {bytes : List UInt8} {a : Nat}
    (h : a < base ∨ base + bytes.length ≤ a) : (m.write base bytes).byteAt a = m.byteAt a := by
  rw [byteAt_write]
  split
  · rw [List.getElem?_eq_none (by omega)]; rfl
  · rfl

theorem read_write (m : Memory) (base : Nat) (bytes : List UInt8) :
    (m.write base bytes).read base bytes.length = bytes := by
  apply List.ext_getElem (by simp)
  intro i _ hi
  simp [read, byteAt_write_of_lt m base bytes hi]

end Memory

/-- A source of bytes for captures: asked for a range, it gives exactly as many bytes as the range has. -/
structure Reader where
  bytes : (address length : Nat) → List UInt8
  length_bytes : ∀ address length, (bytes address length).length = length

def Memory.reader (m : Memory) : Reader := ⟨m.read, m.length_read⟩

end CallCapture
