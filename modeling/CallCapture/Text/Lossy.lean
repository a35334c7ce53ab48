namespace CallCapture.Text

def replacement : Char := '\uFFFD'

def isContinuation (b : UInt8) : Bool := 0x80 ≤ b && b ≤ 0xBF

/-- Whether `b` may follow the lead byte `lead` of a character of three or four bytes. -/
def mayFollow (lead b : UInt8) : Bool :=
  if lead = 0xE0 then 0xA0 ≤ b && b ≤ 0xBF
  else if lead = 0xED then 0x80 ≤ b && b ≤ 0x9F
  else if lead = 0xF0 then 0x90 ≤ b && b ≤ 0xBF
  else if lead = 0xF4 then 0x80 ≤ b && b ≤ 0x8F
  else 0xE0 ≤ lead && lead ≤ 0xF4 && isContinuation b

/-- For bytes that begin with no character: how many of them could still have become one. They share one mark. -/
def brokenLength : List UInt8 → Nat
  | lead :: second :: rest =>
    if mayFollow lead second then
      match rest with
      | third :: _ => if 0xF0 ≤ lead && isContinuation third then 3 else 2
      | [] => 2
    else 1
  | _ => 1

def firstChar? (bytes : List UInt8) : Option Char :=
  (bytes.take 4).toByteArray.utf8DecodeChar? 0

def lossyChars : List UInt8 → List Char
  | [] => []
  | b :: rest =>
    match firstChar? (b :: rest) with
    | some c => c :: lossyChars (rest.drop (c.utf8Size - 1))
    | none => replacement :: lossyChars (rest.drop (brokenLength (b :: rest) - 1))
termination_by bytes => bytes.length
decreasing_by all_goals simp only [List.length_drop, List.length_cons]; omega

def lossy (bytes : List UInt8) : String := String.ofList (lossyChars bytes)

end CallCapture.Text
