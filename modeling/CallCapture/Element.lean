import CallCapture.Word

namespace CallCapture

inductive Width
  | w8 | w16 | w32 | w64 | w128
deriving DecidableEq

namespace Width

def log : Width → Nat
  | w8 => 0
  | w16 => 1
  | w32 => 2
  | w64 => 3
  | w128 => 4

def bytes (w : Width) : Nat := 1 <<< w.log

end Width

/-- `block` is an opaque value of 32 bytes, the one type with an alignment above that of all numbers. -/
inductive ElementType
  | unsigned (width : Width)
  | signed (width : Width)
  | float32
  | float64
  | block
  | array (item : ElementType) (length : Nat)
deriving DecidableEq

inductive Literal
  | integer (n : Int)
  | bytes (bytes : List UInt8)
  | list (items : List Literal)

namespace ElementType

def size : ElementType → Nat
  | unsigned w | signed w => w.bytes
  | float32 => 4
  | float64 => 8
  | block => 32
  | array item length => length * item.size

def alignLog : ElementType → Nat
  | unsigned w | signed w => w.log
  | float32 => 2
  | float64 => 3
  | block => 5
  | array item _ => item.alignLog

def align (t : ElementType) : Nat := 1 <<< t.alignLog

/-- Numbers are words of their width; a float is its bit pattern. -/
@[reducible] def Value : ElementType → Type
  | unsigned w | signed w => BitVec (8 * w.bytes)
  | float32 => BitVec 32
  | float64 => BitVec 64
  | block => Vector UInt8 32
  | array item length => Vector item.Value length

def zero : (t : ElementType) → t.Value
  | unsigned w | signed w => 0#(8 * w.bytes)
  | float32 => 0#32
  | float64 => 0#64
  | block => Vector.replicate 32 0
  | array item length => Vector.replicate length item.zero

def encode : (t : ElementType) → t.Value → List UInt8
  | unsigned w, v | signed w, v => Word.encode w.bytes (BitVec.toNat v)
  | float32, v => Word.encode 4 (BitVec.toNat v)
  | float64, v => Word.encode 8 (BitVec.toNat v)
  | block, v => Vector.toList v
  | array item _, v => (Vector.toList v).flatMap item.encode

/-- Reads a value from the front of `bytes`; bytes that are missing count as zero. -/
def decode : (t : ElementType) → (bytes : List UInt8) → t.Value
  | unsigned w, bytes | signed w, bytes => BitVec.ofNat (8 * w.bytes) (Word.decode (bytes.take w.bytes))
  | float32, bytes => BitVec.ofNat 32 (Word.decode (bytes.take 4))
  | float64, bytes => BitVec.ofNat 64 (Word.decode (bytes.take 8))
  | block, bytes => Vector.ofFn fun i : Fin 32 => bytes.getD i 0
  | array item length, bytes => Vector.ofFn fun i : Fin length => item.decode (bytes.drop (i * item.size))

def literal : (t : ElementType) → t.Value → Literal
  | unsigned _, v => .integer (BitVec.toNat v)
  | signed _, v => .integer (BitVec.toInt v)
  | float32, v => .integer (BitVec.toNat v)
  | float64, v => .integer (BitVec.toNat v)
  | block, v => .bytes (Vector.toList v)
  | array item _, v => .list ((Vector.toList v).map item.literal)

/-- Integers are taken modulo the type's range, and what is missing is zero. -/
def ofLiteral : (t : ElementType) → Literal → t.Value
  | unsigned w, .integer n | signed w, .integer n => BitVec.ofInt (8 * w.bytes) n
  | float32, .integer n => BitVec.ofInt 32 n
  | float64, .integer n => BitVec.ofInt 64 n
  | block, .bytes bs => Vector.ofFn fun i : Fin 32 => bs.getD i 0
  | array item length, .list items => Vector.ofFn fun i : Fin length => item.ofLiteral (items.getD i (.integer 0))
  | t, _ => t.zero

end ElementType

end CallCapture
