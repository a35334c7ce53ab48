import CallCapture.Coverage

namespace CallCapture

structure CoverageSession where
  coverage : Coverage
  memory : Memory
  captured : List Observation

inductive CoverageAction
  | insert (start length : Nat)
  | clear
  | poke (address : Nat) (bytes : List UInt8)
  | fill (address length : Nat)
  | peek (address length : Nat)
  | compare (ranges : List (Nat × Nat))
  | capture
  | captureThrough (reader : Reader)
  | preview (start length : Nat)

inductive CoverageAnswer
  | done
  | bytes (bytes : List UInt8)
  | verdict (same : Bool)
  | captured (os : List Observation)
  | ranges (ranges : List AddressRange)
  | fault (f : Fault)

namespace CoverageSession

def new : CoverageSession := ⟨.empty, .zero, []⟩

/-- The set is empty afterwards, whether all of it could be captured or not. -/
def captureWith (s : CoverageSession) (reader : Reader) : CoverageAnswer × CoverageSession :=
  let captured := s.captured ++ s.coverage.capture reader
  let answer := match s.coverage.captureFault? with
    | some f => .fault f
    | none => .captured captured
  (answer, { s with coverage := .empty, captured })

def step (s : CoverageSession) : CoverageAction → CoverageAnswer × CoverageSession
  | .insert start length => (.done, { s with coverage := s.coverage.insert start length })
  | .clear => (.done, { s with coverage := .empty })
  | .poke address bytes => (.done, { s with memory := s.memory.write address bytes })
  | .fill address length => (.done, { s with memory := s.memory.overlay address length .pattern })
  | .peek address length => (.bytes (s.memory.read address length), s)
  | .compare ranges => (.verdict (s.coverage = .ofList ranges), s)
  | .capture => s.captureWith s.memory.reader
  | .captureThrough reader => s.captureWith reader
  | .preview start length => (.ranges (s.coverage.insert start length).ranges, s)

def run (s : CoverageSession) : List CoverageAction → List (CoverageAnswer × Coverage) × CoverageSession
  | [] => ([], s)
  | a :: rest =>
    let (answer, s) := s.step a
    let (answers, last) := s.run rest
    ((answer, s.coverage) :: answers, last)

end CoverageSession

end CallCapture
