import CallCapture.Proofs.Session.RecordEntry
import CallCapture.Proofs.Wire.Limits

namespace CallCapture.Session

open Sink (taken verdict)

end CallCapture.Session
