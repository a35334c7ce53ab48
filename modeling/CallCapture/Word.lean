namespace CallCapture.Word

/-- Little-endian; of a number that is too large the remainder is kept. -/
def encode : (width : Nat) → (n : Nat) → List UInt8
  | 0, _ => []
  | w + 1, n => UInt8.ofNat n :: encode w (n / 256)

def decode : List UInt8 → Nat
  | [] => 0
  | b :: bs => b.toNat + 256 * decode bs

end CallCapture.Word
