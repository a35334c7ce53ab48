import CallCapture.Proofs.Session.Capture

namespace CallCapture

def Attachment.isRecord : Attachment → Bool
  | .record => true
  | .external _ => false

def Attachment.extra? : Attachment → Option Extra
  | .record => none
  | .external extra => some extra

def Action.extra? : Action → Option Extra
  | .addExtra extra => some extra
  | _ => none

namespace Session

/-- What an action attaches: the extra that it adds, or the record if the action brings it into being. -/
def attached (s : Session) : Action → List Attachment
  | .addExtra extra => [.external extra]
  | .capturePhase _ => if s.observer.record = none ∧ ¬s.observer.pending.isEmpty then [.record] else []
  | _ => []

theorem attached_of_onlyRegisters (s : Session) {a : Action} (h : a.onlyRegisters) : s.attached a = [] := by
  cases a with
  | addExtra | capturePhase => cases h
  | _ => rfl

theorem attachments_step (s : Session) (a : Action) :
    (s.step a).2.observer.attachments = s.observer.attachments ++ s.attached a := by
  cases ha : a.onlyRegisters with
  | true =>
      rw [s.attached_of_onlyRegisters ha, List.append_nil]
      exact (s.step_enters ha).observer.attachments
  | false =>
      cases a with
      | addExtra => rfl
      | setName | setError | scratch => exact (List.append_nil _).symm
      | capturePhase phase =>
          rw [state_step_capturePhase]
          exact Observer.attachments_capturePhase s.observer s.reader phase
      | captureInto =>
          rw [state_step_captureInto]
          exact (Observer.attachments_captureInto s.observer s.reader s.captured).trans (List.append_nil _).symm
      | _ => cases ha

def RecordPlaced (s : Session) : Prop :=
  s.observer.attachments.countP Attachment.isRecord = if s.observer.record.isSome then 1 else 0

theorem recordPlaced_new (config : ObserverConfig) (readerOf : Memory → Memory → Reader) (placement : PoolPlacement)
    (source : ChunkSource) : (Session.new config readerOf placement source).RecordPlaced := rfl

theorem countP_attached_of_not_target (s : Session) {a : Action} (h : a.target? = none) :
    (s.attached a).countP Attachment.isRecord = 0 := by
  cases a with
  | capturePhase => cases h
  | _ => rfl

theorem RecordPlaced.step {s : Session} (h : s.RecordPlaced) (a : Action) : (s.step a).2.RecordPlaced := by
  rw [RecordPlaced, attachments_step, List.countP_append, h]
  cases a with
  | captureInto =>
      rw [state_step_captureInto, Observer.record_captureInto]
      rfl
  | capturePhase phase =>
      rw [state_step_capturePhase, Observer.record_capturePhase, attached]
      by_cases hempty : s.observer.pending.isEmpty
      · simp [hempty]
      · cases s.observer.record with
        | none => simp [hempty, Attachment.isRecord]
        | some r => simp [hempty]
  | _ => rw [(s.step_registers rfl).observer.record, s.countP_attached_of_not_target rfl, Nat.add_zero]

theorem RecordPlaced.run {s : Session} (h : s.RecordPlaced) (actions : List Action) :
    (s.run actions).RecordPlaced := by
  induction actions generalizing s with
  | nil => exact h
  | cons a rest ih => exact ih (h.step a)

theorem filterMap_extra?_attached (s : Session) (a : Action) :
    (s.attached a).filterMap Attachment.extra? = a.extra?.toList := by
  cases a with
  | capturePhase phase =>
      rw [attached]
      split <;> rfl
  | _ => rfl

theorem filterMap_extra?_run (s : Session) (actions : List Action) :
    (s.run actions).observer.attachments.filterMap Attachment.extra? =
      s.observer.attachments.filterMap Attachment.extra? ++ actions.filterMap Action.extra? := by
  induction actions generalizing s with
  | nil => exact (List.append_nil _).symm
  | cons a rest ih =>
      change ((s.step a).2.run rest).observer.attachments.filterMap Attachment.extra? = _
      rw [ih, attachments_step, List.filterMap_append, filterMap_extra?_attached, List.append_assoc]
      cases h : a.extra? <;> simp [h]

theorem RecordPlaced.isSome_of_mem {s : Session} (h : s.RecordPlaced) (hm : .record ∈ s.observer.attachments) :
    s.observer.record.isSome := by
  have hpos : 0 < s.observer.attachments.countP Attachment.isRecord := List.countP_pos_iff.mpr ⟨_, hm, rfl⟩
  rw [h] at hpos
  by_contra hnone
  rw [if_neg hnone] at hpos
  exact Nat.lt_irrefl 0 hpos

end Session

end CallCapture
