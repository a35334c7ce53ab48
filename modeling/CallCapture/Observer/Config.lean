import CallCapture.Arena.Config

namespace CallCapture

structure ObserverConfig where
  observesApplication : Bool
  scratch : ArenaConfig
deriving DecidableEq

namespace ObserverConfig

def fullFidelity : ObserverConfig := ⟨true, .standard⟩

def lightweight : ObserverConfig := ⟨false, .standard⟩

def limitText : Option Nat → String
  | none => "None"
  | some n => s!"Some({n})"

def debugText (c : ObserverConfig) : String :=
  let arena := s!"ArenaConfig \x7b chunk_size: {c.scratch.chunkSize}, max_bytes: {limitText c.scratch.maxBytes} \x7d"
  s!"ObserverConfig \x7b observe_application_pool: {c.observesApplication}, scratch: {arena} \x7d"

end ObserverConfig

end CallCapture
