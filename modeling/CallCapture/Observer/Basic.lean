import CallCapture.Arena.Scratch
import CallCapture.Coverage
import CallCapture.ErrorCode
import CallCapture.Observer.Config
import CallCapture.Observer.Event
import CallCapture.Observer.Extras
import CallCapture.View

namespace CallCapture

/-- Ranges are registered first and captured later, so captures show the memory as it is by then. -/
structure Observer where
  observesApplication : Bool
  commandName : Option String
  error : ErrorCode
  scratch : Scratch
  record : Option Record
  pending : Coverage
  attachments : List Attachment
  /-- Pools behind pending ranges, held until the next capture. -/
  retained : List Pool
  log : List Event

namespace Observer

def new (config : ObserverConfig) (source : ChunkSource) : Observer where
  observesApplication := config.observesApplication
  commandName := none
  error := .noError
  scratch := .new config.scratch source
  record := none
  pending := .empty
  attachments := []
  retained := []
  log := []

def note (o : Observer) (events : List Event) : Observer := { o with log := o.log ++ events }

/-- Memory of the application is observed under the full policy only, and tool memory never. -/
def observes (o : Observer) (owner : Ownership) : Bool := o.observesApplication && owner.isApplication

def register (o : Observer) (phase : Phase) (base size : Nat) : Observer :=
  if size = 0 then o
  else note { o with pending := o.pending.insert base size } [.rangeRegistered base size phase]

def registerRegion (o : Observer) (phase : Phase) (r : Region) : Observer :=
  if r.byteLength = 0 then o
  else register { o with retained := o.retained ++ r.backing.toList } phase r.base r.byteLength

def registerObserved (o : Observer) (phase : Phase) (r : Region) : Observer :=
  if o.observes r.owner then o.registerRegion phase r else o

def addExtra (o : Observer) (extra : Extra) : Observer :=
  { o with attachments := o.attachments ++ [.external extra] }

def extras (o : Observer) : Extras := ⟨o.attachments, o.record⟩

def attachRecord (o : Observer) : Observer :=
  match o.record with
  | some _ => o
  | none =>
    note { o with record := some .empty, attachments := o.attachments ++ [.record] }
      [.recordAttached o.commandName o.attachments.length]

/-- The pending ranges are gone after any capture. One that stopped at a fault is not logged and lets go of no pool. -/
def finishCapture (o : Observer) (phase : Option Phase) : Except Fault Unit × Observer :=
  let drained := { o with pending := .empty }
  match o.pending.captureFault? with
  | some f => (.error f, drained)
  | none => (.ok (), note { drained with retained := [] } [.captured phase o.pending.count o.pending.totalBytes])

def capturePhase (o : Observer) (reader : Reader) (phase : Phase) : Except Fault Unit × Observer :=
  if o.pending.isEmpty then (.ok (), o)
  else
    let o := o.attachRecord
    let taken := o.pending.capture reader
    finishCapture { o with record := o.record.map (Record.append · phase taken) } (some phase)

def captureInto (o : Observer) (reader : Reader) (out : List Observation) :
    Except Fault Unit × List Observation × Observer :=
  if o.pending.isEmpty then (.ok (), out, { o with retained := [] })
  else
    let (result, p) := o.finishCapture none
    (result, out ++ o.pending.capture reader, p)

end Observer

end CallCapture
