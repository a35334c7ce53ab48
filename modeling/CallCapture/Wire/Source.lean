import CallCapture.Wire.Error

namespace CallCapture

/-- Positions count the bytes handed out so far, and no call crosses a marked one. -/
structure Source where
  unread : List UInt8
  position : Nat
  /-- The most bytes that one call hands out. -/
  chunk : Option Nat
  /-- Positions where a call fails once per occurrence. -/
  interrupts : List Nat
  /-- The position from which no call succeeds. -/
  failAt : Option Nat

/-- What was read before a failure stays read. -/
abbrev Decoder := EStateM WireError Source

namespace Source

def ofBytes (bytes : List UInt8) : Source := ⟨bytes, 0, none, [], none⟩

def reach (s : Source) (n : Nat) : Nat :=
  let marks := (s.interrupts ++ s.failAt.toList).filter (s.position < ·)
  let distances := marks.map (· - s.position)
  distances.foldl min (min n (min (s.chunk.getD n) s.unread.length))

def advance (s : Source) (count : Nat) : Source :=
  { s with unread := s.unread.drop count, position := s.position + count }

/-- One call for at most `n` bytes; an answer without bytes to a call for some means the end of the data. -/
def call (n : Nat) (s : Source) : EStateM.Result IoError Source (List UInt8) :=
  if n = 0 then .ok [] s
  else if s.position ∈ s.interrupts then
    .error .interrupted { s with interrupts := s.interrupts.erase s.position }
  else if s.failAt = some s.position then .error .timedOut s
  else .ok (s.unread.take (s.reach n)) (s.advance (s.reach n))

theorem interrupts_of_call_ok {n : Nat} {s t : Source} {bytes : List UInt8} (h : s.call n = .ok bytes t) :
    t.interrupts = s.interrupts := by
  unfold call advance at h
  repeat' split at h
  all_goals cases h
  all_goals rfl

theorem foldl_min_le (l : List Nat) (n : Nat) : l.foldl min n ≤ n := by
  induction l generalizing n with
  | nil => exact Nat.le_refl n
  | cons a l ih => exact Nat.le_trans (ih _) (Nat.min_le_left _ _)

theorem reach_le (s : Source) (n : Nat) : s.reach n ≤ n :=
  Nat.le_trans (foldl_min_le _ _) (Nat.min_le_left _ _)

theorem length_of_call_ok {n : Nat} {s t : Source} {bytes : List UInt8} (h : s.call n = .ok bytes t) :
    bytes.length ≤ n := by
  unfold call at h
  repeat' split at h
  all_goals cases h
  · exact Nat.zero_le n
  · rw [List.length_take]
    exact Nat.le_trans (Nat.min_le_left _ _) (s.reach_le n)

theorem interrupts_of_call_interrupted {n : Nat} {s t : Source} (h : s.call n = .error .interrupted t) :
    t.interrupts.length < s.interrupts.length := by
  unfold call at h
  repeat' split at h
  all_goals cases h
  rename_i hm
  rw [List.length_erase_of_mem hm]
  have := List.length_pos_of_mem hm
  omega

/-- Calls until `n` bytes are there or the data end. An interruption is no obstacle: the call is repeated. -/
def gather (n : Nat) (s : Source) : EStateM.Result IoError Source (List UInt8) :=
  match _h : s.call n with
  | .ok [] t => .ok [] t
  | .ok (b :: bytes) t =>
    match gather (n - (b :: bytes).length) t with
    | .ok more u => .ok (b :: bytes ++ more) u
    | .error e u => .error e u
  | .error .interrupted t => gather n t
  | .error e t => .error e t
termination_by n + s.interrupts.length
decreasing_by
  · have hi := interrupts_of_call_ok _h
    have hl := length_of_call_ok _h
    simp only [List.length_cons] at hl ⊢
    rw [hi]
    omega
  · have := interrupts_of_call_interrupted _h
    omega

theorem gather_of_call_nil {n : Nat} {s t : Source} (h : s.call n = .ok [] t) : s.gather n = .ok [] t := by
  unfold gather
  split <;> simp_all

theorem gather_of_call_cons {n : Nat} {s t : Source} {b : UInt8} {bytes : List UInt8}
    (h : s.call n = .ok (b :: bytes) t) :
    s.gather n = match t.gather (n - (b :: bytes).length) with
      | .ok more u => .ok (b :: bytes ++ more) u
      | .error e u => .error e u := by
  rw [gather]
  split <;> simp_all

end Source

namespace Decoder

def takeUpTo (n : Nat) : Decoder (List UInt8) := fun s =>
  match s.gather n with
  | .ok bytes t => .ok bytes t
  | .error e t => .error (.io e) t

def exactly (n : Nat) : Decoder (List UInt8) := do
  let bytes ← takeUpTo n
  if bytes.length < n then throw (.io .unexpectedEnd)
  pure bytes

/-- One call for one byte, with no second try. -/
def byte? : Decoder (Option UInt8) := fun s =>
  match s.call 1 with
  | .ok bytes t => .ok bytes.head? t
  | .error e t => .error (.io e) t

def declared (part : Part) (length : Nat) : Decoder { bytes : List UInt8 // bytes.length = length } := do
  let bytes ← takeUpTo length
  if h : bytes.length = length then pure ⟨bytes, h⟩
  else throw (.malformed (.truncated part length bytes.length))

end Decoder

end CallCapture
