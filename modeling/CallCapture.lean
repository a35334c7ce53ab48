import CallCapture.Coverage.Lemmas
import CallCapture.Coverage.Session
import CallCapture.Element.Lemmas
import CallCapture.Memory.Lemmas
import CallCapture.Names.Lemmas
import CallCapture.Text.Lossy.Lemmas
import CallCapture.Process.Lemmas
import CallCapture.Arena.Lemmas
import CallCapture.Session.Step
import CallCapture.Workload
import CallCapture.Observer.Lemmas
import CallCapture.Observer.Registration
import CallCapture.Proofs.Coverage.Canonical
import CallCapture.Proofs.Coverage.Run
import CallCapture.Proofs.Coverage.Totals
import CallCapture.Proofs.Coverage.Workloads
import CallCapture.Proofs.Wire.Payload
import CallCapture.Proofs.Wire.Plain
import CallCapture.Proofs.Wire.RoundTrip
import CallCapture.Proofs.Wire.Extras
import CallCapture.Proofs.Wire.Frames
import CallCapture.Proofs.Scratch.Hosts
import CallCapture.Proofs.Scratch.Steps
import CallCapture.Proofs.Scratch.Run
import CallCapture.Proofs.Scratch.Blocks
import CallCapture.Proofs.Scratch.Arrays
import CallCapture.Proofs.Session.Registrations
import CallCapture.Proofs.Session.Capture
import CallCapture.Proofs.Session.Attachments
import CallCapture.Proofs.Session.Transmission
import CallCapture.Proofs.Session.Pools
import CallCapture.Proofs.Session.Retention
import CallCapture.Proofs.Session.RecordEntry
import CallCapture.Proofs.Session.Gating
import CallCapture.Proofs.Session.Footprint
import CallCapture.Proofs.Scratch.Refusals
import CallCapture.Proofs.Session.Atomicity
import CallCapture.Proofs.Session.Policy
import CallCapture.Proofs.Scratch.Accounting
import CallCapture.Proofs.Wire.Delivery
import CallCapture.Proofs.Wire.Truncation
import CallCapture.Proofs.Wire.Limits
import CallCapture.Proofs.Session.Limits
import CallCapture.Proofs.Scratch.Outcomes
import CallCapture.Proofs.Scratch.Growth
import CallCapture.Proofs.Session.Log
import CallCapture.Proofs.Session.Separation
import CallCapture.Proofs.Wire.FramedRecord
import CallCapture.Proofs.Wire.Stream
import CallCapture.Proofs.Wire.Demand
import CallCapture.Proofs.Session.Copies
import CallCapture.Proofs.Session.Elementwise
import CallCapture.Proofs.Session.Lifetimes
import CallCapture.Proofs.Session.Placement
import CallCapture.Proofs.Session.Clones
import CallCapture.Proofs.Session.Strings
import CallCapture.Proofs.Views.Bytes
import CallCapture.Proofs.Session.Identity
