import CallCapture.Coverage.Lemmas
import CallCapture.Observer.Strings
import CallCapture.Observer.Views

namespace CallCapture

namespace View

variable {t : ElementType}

def extent (v : View t) : Nat × Nat := (v.base, v.byteLength)

def elementExtent (v : View t) (index : Nat) : Nat × Nat := (v.base + index * t.size, t.size)

section element

variable {v : View t} {index : Nat}

theorem elementAddress_of_lt (h : index < v.count) : v.elementAddress index = .ok (v.base + index * t.size) := if_pos h

theorem elementAddress_of_le (h : v.count ≤ index) : v.elementAddress index = .error (.elementIndex index v.count) :=
  if_neg (Nat.not_lt.mpr h)

theorem get_of_lt (h : index < v.count) (m : Memory) : v.get m index = .ok (v.element m index) := by
  rw [get, elementAddress_of_lt h]
  rfl

theorem get_of_le (h : v.count ≤ index) (m : Memory) : v.get m index = .error (.elementIndex index v.count) := by
  rw [get, elementAddress_of_le h]
  rfl

theorem set_of_lt (h : index < v.count) (m : Memory) (value : t.Value) :
    v.set m index value = .ok (m.write (v.base + index * t.size) (t.encode value)) := by
  rw [set, elementAddress_of_lt h]
  rfl

theorem set_of_le (h : v.count ≤ index) (m : Memory) (value : t.Value) :
    v.set m index value = .error (.elementIndex index v.count) := by
  rw [set, elementAddress_of_le h]
  rfl

end element

theorem copyTo_min (v dst : View t) (m : Memory) :
    v.copyTo dst m 0 (min v.count dst.count) 0 =
      .ok (m.write dst.base (m.read v.base (min v.count dst.count * t.size))) := by
  rw [copyTo, if_neg (by omega), if_neg (by omega), Nat.zero_mul, Nat.add_zero, Nat.add_zero]

end View

namespace Observer

/-- `p` is `o` after the ranges of `l` were registered. What was captured before is left alone. -/
structure Registers (o : Observer) (l : List (Nat × Nat)) (p : Observer) : Prop where
  pending : p.pending = o.pending.insertAll l
  record : p.record = o.record

def elementRegistrations {t : ElementType} (o : Observer) (v : View t) (index : Nat) : List (Nat × Nat) :=
  if o.observes v.owner ∧ index < v.count then [v.elementExtent index] else []

/-- What is registered of a string: its bytes and the zero byte behind them. -/
def stringRegistrations (m : Memory) (address : Nat) : List (Nat × Nat) :=
  if address = 0 then []
  else ((m.distanceToZero address (addressTop + 1 - address)).map fun length => (address, length + 1)).toList

section captures

variable (o : Observer) (reader : Reader) (phase : Phase) (out : List Observation)

theorem pending_finishCapture (target : Option Phase) : (o.finishCapture target).2.pending = .empty := by
  simp only [finishCapture]
  cases o.pending.captureFault? with
  | none => rfl
  | some f => rfl

theorem record_finishCapture (target : Option Phase) : (o.finishCapture target).2.record = o.record := by
  simp only [finishCapture]
  cases o.pending.captureFault? with
  | none => rfl
  | some f => rfl

theorem retained_finishCapture (target : Option Phase) :
    (o.finishCapture target).2.retained = if o.pending.captureFault?.isSome then o.retained else [] := by
  simp only [finishCapture]
  cases o.pending.captureFault? with
  | none => rfl
  | some f => rfl

theorem attachments_finishCapture (target : Option Phase) :
    (o.finishCapture target).2.attachments = o.attachments := by
  simp only [finishCapture]
  cases o.pending.captureFault? with
  | none => rfl
  | some f => rfl

theorem log_finishCapture (target : Option Phase) :
    (o.finishCapture target).2.log =
      o.log ++ if o.pending.captureFault?.isSome then []
        else [.captured target o.pending.count o.pending.totalBytes] := by
  simp only [finishCapture]
  cases o.pending.captureFault? with
  | none => rfl
  | some f => exact (List.append_nil _).symm

theorem finishCapture_eq_error (target : Option Phase) (f : Fault) :
    (o.finishCapture target).1 = .error f ↔ o.pending.captureFault? = some f := by
  simp only [finishCapture]
  cases o.pending.captureFault? <;> simp

theorem record_attachRecord : o.attachRecord.record = some (o.record.getD .empty) := by
  simp only [attachRecord]
  cases h : o.record with
  | none => rfl
  | some r => exact h

theorem pending_attachRecord : o.attachRecord.pending = o.pending := by
  simp only [attachRecord]
  cases o.record with
  | none => rfl
  | some r => rfl

theorem retained_attachRecord : o.attachRecord.retained = o.retained := by
  simp only [attachRecord]
  cases o.record with
  | none => rfl
  | some r => rfl

theorem attachments_attachRecord :
    o.attachRecord.attachments = o.attachments ++ if o.record = none then [.record] else [] := by
  simp only [attachRecord]
  cases o.record with
  | none => rfl
  | some r => exact (List.append_nil _).symm

theorem log_attachRecord :
    o.attachRecord.log =
      o.log ++ if o.record = none then [.recordAttached o.commandName o.attachments.length] else [] := by
  simp only [attachRecord]
  cases o.record with
  | none => rfl
  | some r => exact (List.append_nil _).symm

theorem capturePhase_of_isEmpty (h : o.pending.isEmpty) : o.capturePhase reader phase = (.ok (), o) := if_pos h

theorem capturePhase_of_not_isEmpty (h : ¬o.pending.isEmpty) :
    o.capturePhase reader phase =
      finishCapture
        { o.attachRecord with
          record := o.attachRecord.record.map (Record.append · phase (o.attachRecord.pending.capture reader)) }
        (some phase) := if_neg h

theorem captureInto_of_isEmpty (h : o.pending.isEmpty) :
    o.captureInto reader out = (.ok (), out, { o with retained := [] }) := if_pos h

theorem captureInto_of_not_isEmpty (h : ¬o.pending.isEmpty) :
    o.captureInto reader out =
      ((o.finishCapture none).1, out ++ o.pending.capture reader, (o.finishCapture none).2) := if_neg h

theorem pending_capturePhase : (o.capturePhase reader phase).2.pending = .empty := by
  by_cases h : o.pending.isEmpty
  · rw [capturePhase_of_isEmpty o reader phase h]
    exact Coverage.eq_empty_of_isEmpty h
  · rw [capturePhase, if_neg h]
    exact pending_finishCapture _ _

theorem record_capturePhase :
    (o.capturePhase reader phase).2.record =
      if o.pending.isEmpty then o.record
      else some ((o.record.getD .empty).append phase (o.pending.capture reader)) := by
  by_cases h : o.pending.isEmpty
  · rw [capturePhase_of_isEmpty o reader phase h, if_pos h]
  · rw [capturePhase, if_neg h, if_neg h]
    simp only [record_finishCapture, record_attachRecord, pending_attachRecord, Option.map_some]

theorem retained_capturePhase :
    (o.capturePhase reader phase).2.retained =
      if o.pending.isEmpty ∨ o.pending.captureFault?.isSome then o.retained else [] := by
  by_cases h : o.pending.isEmpty
  · rw [capturePhase_of_isEmpty o reader phase h, if_pos (Or.inl h)]
  · rw [capturePhase, if_neg h, retained_finishCapture]
    simp only [retained_attachRecord, pending_attachRecord, h, Bool.false_eq_true, false_or]

theorem attachments_capturePhase :
    (o.capturePhase reader phase).2.attachments =
      o.attachments ++ if o.record = none ∧ ¬o.pending.isEmpty then [.record] else [] := by
  by_cases h : o.pending.isEmpty
  · rw [capturePhase_of_isEmpty o reader phase h, if_neg fun hr => hr.2 h, List.append_nil]
  · rw [capturePhase, if_neg h, attachments_finishCapture]
    simp only [attachments_attachRecord, h, Bool.false_eq_true, not_false_eq_true, and_true]

def captureEvents (target : Option Phase) : List Event :=
  if o.pending.isEmpty ∨ o.pending.captureFault?.isSome then []
  else [.captured target o.pending.count o.pending.totalBytes]

def attachmentEvents (target : Option Phase) : List Event :=
  if target.isSome ∧ o.record = none ∧ ¬o.pending.isEmpty then
    [.recordAttached o.commandName o.attachments.length]
  else []

theorem log_capturePhase :
    (o.capturePhase reader phase).2.log = o.log ++ (o.attachmentEvents (some phase) ++ o.captureEvents (some phase)) := by
  rw [attachmentEvents, captureEvents]
  by_cases h : o.pending.isEmpty
  · rw [capturePhase_of_isEmpty o reader phase h, if_neg fun hr => hr.2.2 h, if_pos (Or.inl h)]
    exact (List.append_nil _).symm
  · rw [capturePhase, if_neg h, log_finishCapture]
    simp only [log_attachRecord, pending_attachRecord, h, Bool.false_eq_true, not_false_eq_true, and_true,
      Option.isSome_some, true_and, false_or, List.append_assoc]

theorem capturePhase_eq_error (f : Fault) :
    (o.capturePhase reader phase).1 = .error f ↔ o.pending.captureFault? = some f := by
  by_cases h : o.pending.isEmpty
  · rw [capturePhase_of_isEmpty o reader phase h, Coverage.eq_empty_of_isEmpty h]
    exact ⟨nofun, nofun⟩
  · rw [capturePhase, if_neg h]
    simp only [finishCapture_eq_error, pending_attachRecord]

theorem pending_captureInto : (o.captureInto reader out).2.2.pending = .empty := by
  by_cases h : o.pending.isEmpty
  · rw [captureInto_of_isEmpty o reader out h]
    exact Coverage.eq_empty_of_isEmpty h
  · rw [captureInto_of_not_isEmpty o reader out h]
    exact pending_finishCapture _ _

theorem record_captureInto : (o.captureInto reader out).2.2.record = o.record := by
  by_cases h : o.pending.isEmpty
  · rw [captureInto_of_isEmpty o reader out h]
  · rw [captureInto_of_not_isEmpty o reader out h]
    exact record_finishCapture _ _

theorem retained_captureInto :
    (o.captureInto reader out).2.2.retained = if o.pending.captureFault?.isSome then o.retained else [] := by
  by_cases h : o.pending.isEmpty
  · rw [captureInto_of_isEmpty o reader out h, Coverage.eq_empty_of_isEmpty h]
    rfl
  · rw [captureInto_of_not_isEmpty o reader out h]
    exact retained_finishCapture o none

theorem attachments_captureInto : (o.captureInto reader out).2.2.attachments = o.attachments := by
  by_cases h : o.pending.isEmpty
  · rw [captureInto_of_isEmpty o reader out h]
  · rw [captureInto_of_not_isEmpty o reader out h]
    exact attachments_finishCapture o none

theorem log_captureInto :
    (o.captureInto reader out).2.2.log = o.log ++ (o.attachmentEvents none ++ o.captureEvents none) := by
  rw [attachmentEvents, captureEvents, if_neg fun hr => absurd hr.1 (by simp)]
  by_cases h : o.pending.isEmpty
  · rw [captureInto_of_isEmpty o reader out h, if_pos (Or.inl h)]
    exact (List.append_nil _).symm
  · rw [captureInto_of_not_isEmpty o reader out h, log_finishCapture]
    simp only [h, Bool.false_eq_true, false_or, List.nil_append]

theorem captured_captureInto : (o.captureInto reader out).2.1 = out ++ o.pending.capture reader := by
  by_cases h : o.pending.isEmpty
  · rw [captureInto_of_isEmpty o reader out h, Coverage.eq_empty_of_isEmpty h]
    exact (List.append_nil out).symm
  · rw [captureInto_of_not_isEmpty o reader out h]

theorem captureInto_eq_error (f : Fault) :
    (o.captureInto reader out).1 = .error f ↔ o.pending.captureFault? = some f := by
  by_cases h : o.pending.isEmpty
  · rw [captureInto_of_isEmpty o reader out h, Coverage.eq_empty_of_isEmpty h]
    exact ⟨nofun, nofun⟩
  · rw [captureInto_of_not_isEmpty o reader out h]
    exact finishCapture_eq_error o none f

end captures

/-- An observer but for all that registrations and captures change. -/
def bare (o : Observer) : Observer :=
  { o with record := none, pending := .empty, attachments := [], retained := [], log := [] }

theorem bare_eq_bare {o p : Observer} :
    p.bare = o.bare ↔ p.observesApplication = o.observesApplication ∧ p.commandName = o.commandName ∧
      p.error = o.error ∧ p.scratch = o.scratch := by
  simp only [bare, mk.injEq, and_true]

theorem bare_attachRecord (o : Observer) : o.attachRecord.bare = o.bare := by
  simp only [attachRecord]
  cases o.record <;> rfl

theorem bare_finishCapture (o : Observer) (target : Option Phase) : (o.finishCapture target).2.bare = o.bare := by
  simp only [finishCapture]
  cases o.pending.captureFault? <;> rfl

theorem bare_capturePhase (o : Observer) (reader : Reader) (phase : Phase) :
    (o.capturePhase reader phase).2.bare = o.bare := by
  by_cases h : o.pending.isEmpty
  · rw [capturePhase_of_isEmpty o reader phase h]
  · rw [capturePhase, if_neg h, bare_finishCapture]
    exact o.bare_attachRecord

theorem bare_captureInto (o : Observer) (reader : Reader) (out : List Observation) :
    (o.captureInto reader out).2.2.bare = o.bare := by
  by_cases h : o.pending.isEmpty
  · rw [captureInto_of_isEmpty o reader out h]
    rfl
  · rw [captureInto_of_not_isEmpty o reader out h]
    exact o.bare_finishCapture none

section element

variable {t : ElementType} {v : View t} {index : Nat}

theorem readElement_of_lt (h : index < v.count) (o : Observer) (m : Memory) :
    o.readElement m v index =
      (.ok (v.element m index), if o.observes v.owner then o.register .read (v.base + index * t.size) t.size else o) := by
  rw [readElement, View.get_of_lt h]

theorem readElement_of_le (h : v.count ≤ index) (o : Observer) (m : Memory) :
    o.readElement m v index = (.error (.elementIndex index v.count), o) := by
  rw [readElement, View.get_of_le h]

theorem writeElement_of_lt (h : index < v.count) (o : Observer) (m : Memory) (value : t.Value) :
    o.writeElement m v index value =
      .ok (if o.observes v.owner then (o.register .write (v.base + index * t.size) t.size, m)
        else (o, m.write (v.base + index * t.size) (t.encode value))) := by
  rw [writeElement, View.elementAddress_of_lt h, View.set_of_lt h]
  split <;> rfl

theorem writeElement_of_le (h : v.count ≤ index) (o : Observer) (m : Memory) (value : t.Value) :
    o.writeElement m v index value = .error (.elementIndex index v.count) := by
  rw [writeElement, View.elementAddress_of_le h, View.set_of_le h]
  split <;> rfl

end element

section copies

variable {t : ElementType}

theorem observes_registerRegion (o : Observer) (phase : Phase) (r : Region) :
    (o.registerRegion phase r).observes = o.observes := by
  funext owner
  rw [registerRegion]
  split
  · rfl
  · rw [register]
    split <;> rfl

/-- A copy never fails: it takes no more elements than both views have. -/
theorem copy_eq (o : Observer) (m : Memory) (dst src : View t) :
    o.copy m dst src = (.ok dst, o.registerRegion .read src.region,
      if o.observes dst.owner then m
      else m.write dst.base (m.read src.base (min src.count dst.count * t.size))) := by
  rw [copy, observes_registerRegion, View.copyTo_min]
  split <;> rfl

theorem cloneView_of_error {o : Observer} {p q : Process} {src : View t} {f : Fault}
    (h : p.make t src.count = (.error f, q)) :
    o.cloneView p src = (.error f, o.note (Event.ofPools p.pools q.pools), q) := by
  rw [cloneView, h]

theorem cloneView_of_ok {o : Observer} {p q : Process} {src dst : View t}
    (h : p.make t src.count = (.ok dst, q)) :
    o.cloneView p src =
      (.ok dst, (o.note (Event.ofPools p.pools q.pools)).registerRegion .read src.region,
        { q with
          memory := if o.observes dst.owner then q.memory
            else q.memory.write dst.base (q.memory.read src.base (min src.count dst.count * t.size)) }) := by
  rw [cloneView, h]
  dsimp only
  rw [copy_eq]
  rfl

end copies

end Observer

end CallCapture
