import CallCapture.Proofs.Session.RecordEntry
import CallCapture.Proofs.Session.Retention

namespace CallCapture

structure CaptureNote where
  target : Option Phase
  intervals : Nat
  bytes : Nat

def CaptureNote.of (target : Option Phase) (os : List Observation) : CaptureNote :=
  ⟨target, os.length, Observation.totalBytes os⟩

namespace Event

def track (l : List (Nat × Nat)) : Event → List (Nat × Nat)
  | rangeRegistered base size _ => l ++ [(base, size)]
  | captured .. => []
  | poolCreated .. | scratchGrew .. | recordAttached .. | nullString .. => l

def outstanding (log : List Event) : List (Nat × Nat) := log.foldl track []

def capture? : Event → Option CaptureNote
  | captured target intervals bytes => some ⟨target, intervals, bytes⟩
  | _ => none

def attachment? : Event → Option (Option String × Nat)
  | recordAttached command index => some (command, index)
  | _ => none

def recordedBytes (log : List Event) : Nat :=
  (log.filterMap capture?).foldr (fun c n => (if c.target.isSome then c.bytes else 0) + n) 0

theorem recordedBytes_append (log events : List Event) :
    recordedBytes (log ++ events) = recordedBytes log + recordedBytes events := by
  rw [recordedBytes, recordedBytes, recordedBytes, List.filterMap_append]
  induction log.filterMap capture? with
  | nil => exact (Nat.zero_add _).symm
  | cons c rest ih => rw [List.cons_append, List.foldr_cons, List.foldr_cons, ih, Nat.add_assoc]

def isAside : Event → Bool
  | poolCreated .. | scratchGrew .. | nullString .. => true
  | rangeRegistered .. | recordAttached .. | captured .. => false

section aside

variable {events : List Event}

theorem foldl_track_of_aside (h : ∀ e ∈ events, e.isAside) (l : List (Nat × Nat)) : events.foldl track l = l := by
  induction events with
  | nil => rfl
  | cons e rest ih =>
      obtain ⟨he, hrest⟩ := List.forall_mem_cons.mp h
      cases e with
      | rangeRegistered | recordAttached | captured => cases he
      | poolCreated | scratchGrew | nullString => exact ih hrest

theorem filterMap_capture?_of_aside (h : ∀ e ∈ events, e.isAside) : events.filterMap capture? = [] := by
  refine List.filterMap_eq_nil_iff.mpr fun e he => ?_
  have haside := h e he
  cases e with
  | rangeRegistered | recordAttached | captured => cases haside
  | poolCreated | scratchGrew | nullString => rfl

theorem filterMap_attachment?_of_aside (h : ∀ e ∈ events, e.isAside) : events.filterMap attachment? = [] := by
  refine List.filterMap_eq_nil_iff.mpr fun e he => ?_
  have haside := h e he
  cases e with
  | rangeRegistered | recordAttached | captured => cases haside
  | poolCreated | scratchGrew | nullString => rfl

end aside

theorem isAside_ofPools {before after : Pools} : ∀ e ∈ ofPools before after, e.isAside := by
  intro e he
  obtain ⟨p, -, rfl⟩ := List.mem_map.mp he
  rfl

theorem isAside_ofArena {before after : Arena} : ∀ e ∈ ofArena before after, e.isAside := by
  intro e he
  rw [ofArena] at he
  split at he
  · obtain ⟨c, -, rfl⟩ := List.mem_map.mp he
    rfl
  · cases he

end Event

namespace Registration

variable (x : Registration)

theorem ofList_track_events (l : List (Nat × Nat)) :
    Coverage.ofList (x.events.foldl Event.track l) = (Coverage.ofList l).insertAll x.ranges := by
  cases x with
  | nothing => rfl
  | range phase base size =>
      rw [events]
      split
      · rename_i hsize
        rw [ranges, hsize]
        exact (Coverage.insert_zero _ base).symm
      · exact Coverage.ofList_append l [(base, size)]
  | region phase r =>
      rw [events]
      split
      · rename_i hsize
        rw [ranges, hsize]
        exact (Coverage.insert_zero _ r.base).symm
      · exact Coverage.ofList_append l [(r.base, r.byteLength)]

theorem filterMap_capture?_events : x.events.filterMap Event.capture? = [] := by
  cases x with
  | nothing => rfl
  | range | region =>
      rw [events]
      split <;> rfl

theorem filterMap_attachment?_events : x.events.filterMap Event.attachment? = [] := by
  cases x with
  | nothing => rfl
  | range | region =>
      rw [events]
      split <;> rfl

end Registration

namespace Observer

variable (o : Observer) (target : Option Phase)

theorem foldl_track_attachmentEvents (l : List (Nat × Nat)) : (o.attachmentEvents target).foldl Event.track l = l := by
  rw [attachmentEvents]
  split <;> rfl

theorem filterMap_capture?_attachmentEvents : (o.attachmentEvents target).filterMap Event.capture? = [] := by
  rw [attachmentEvents]
  split <;> rfl

theorem filterMap_attachment?_captureEvents : (o.captureEvents target).filterMap Event.attachment? = [] := by
  rw [captureEvents]
  split <;> rfl

end Observer

namespace Session

variable {s : Session} {a : Action} {events : List Event}

theorem isAside_notes (s : Session) (a : Action) : ∀ e ∈ s.notes a, e.isAside := by
  cases a with
  | make | createPool => exact Event.isAside_ofPools
  | cloneView src name =>
      rw [notes]
      cases s.views.get? src with
      | none => exact nofun
      | some v => exact Event.isAside_ofPools
  | readString address =>
      rw [notes]
      split
      · exact List.forall_mem_singleton.mpr rfl
      · exact nofun
  | _ => exact nofun

inductive Logs (s : Session) (a : Action) : List Event → Prop
  | registers {notes : List Event} (registers : a.onlyRegisters) (aside : ∀ e ∈ notes, e.isAside) :
      Logs s a (notes ++ (s.registration a).events)
  | captures {target : Option Phase} (captures : a.target? = some target) :
      Logs s a (s.observer.attachmentEvents target ++ s.observer.captureEvents target)
  | sets {events : List Event} (kept : a.target? = none) (quiet : s.registrations a = [])
      (aside : ∀ e ∈ events, e.isAside) : Logs s a events

theorem exists_logs (s : Session) (a : Action) :
    ∃ events, (s.step a).2.observer.log = s.observer.log ++ events ∧ s.Logs a events := by
  cases ha : a.onlyRegisters with
  | true => exact ⟨_, (s.step_enters ha).observer.log, .registers ha (s.isAside_notes a)⟩
  | false =>
      cases a with
      | setName | setError | addExtra => exact ⟨[], (List.append_nil _).symm, .sets rfl rfl nofun⟩
      | scratch action => exact ⟨_, rfl, .sets rfl rfl Event.isAside_ofArena⟩
      | capturePhase phase =>
          refine ⟨_, ?_, .captures rfl⟩
          rw [state_step_capturePhase]
          exact Observer.log_capturePhase s.observer s.reader phase
      | captureInto =>
          refine ⟨_, ?_, .captures rfl⟩
          rw [state_step_captureInto]
          exact Observer.log_captureInto s.observer s.reader s.captured
      | _ => cases ha

def logged (s : Session) (actions : List Action) : List Event :=
  (s.run actions).observer.log.drop s.observer.log.length

def appended (s : Session) (actions : List Action) (target : Option Phase) : List Observation :=
  ((s.run actions).collected target).drop (s.collected target).length

theorem log_step (s : Session) (a : Action) :
    (s.step a).2.observer.log = s.observer.log ++ s.logged [a] ∧ s.Logs a (s.logged [a]) := by
  obtain ⟨events, hlog, hlogs⟩ := s.exists_logs a
  have hlogged : s.logged [a] = events := by
    change (s.step a).2.observer.log.drop _ = _
    rw [hlog, List.drop_left]
  rw [hlogged]
  exact ⟨hlog, hlogs⟩

theorem log_run (s : Session) (actions : List Action) :
    (s.run actions).observer.log = s.observer.log ++ s.logged actions := by
  have hprefix : s.observer.log <+: (s.run actions).observer.log := by
    induction actions generalizing s with
    | nil => exact List.prefix_rfl
    | cons a rest ih =>
        have hstep : s.observer.log <+: (s.step a).2.observer.log := ⟨_, (s.log_step a).1.symm⟩
        exact hstep.trans (ih (s.step a).2)
  obtain ⟨events, hevents⟩ := hprefix
  rw [logged, ← hevents, List.drop_left]

theorem logged_nil (s : Session) : s.logged [] = [] := List.drop_length

theorem logged_cons (s : Session) (a : Action) (rest : List Action) :
    s.logged (a :: rest) = s.logged [a] ++ (s.step a).2.logged rest := by
  have hrun := (s.step a).2.log_run rest
  rw [(s.log_step a).1, List.append_assoc] at hrun
  exact List.append_cancel_left ((s.log_run (a :: rest)).symm.trans hrun)

section pending

variable {l : List (Nat × Nat)}

theorem Logs.pending (h : s.Logs a events) (hl : s.observer.pending = .ofList l)
    (hfault : a.target?.isSome → (s.step a).1.isFault = false) :
    (s.step a).2.observer.pending = .ofList (events.foldl Event.track l) := by
  cases h with
  | registers registers aside =>
      rw [List.foldl_append, Event.foldl_track_of_aside aside, Registration.ofList_track_events, ← hl]
      exact (s.step_enters registers).observer.pending
  | captures captures =>
      rename_i target
      have hheld : s.observer.pending.captureFault?.isSome = false := by
        rw [← isFault_step_of_target captures]
        exact hfault (Option.isSome_of_mem captures)
      rw [(s.step_captures captures).pending, List.foldl_append, Observer.foldl_track_attachmentEvents,
        Observer.captureEvents, hheld]
      by_cases hempty : s.observer.pending.isEmpty
      · rw [if_pos (Or.inl hempty), List.foldl_nil, ← hl, Coverage.eq_empty_of_isEmpty hempty]
        rfl
      · rw [if_neg (by simp [hempty])]
        rfl
  | sets kept quiet aside =>
      rw [Event.foldl_track_of_aside aside, ← hl, (s.step_registers kept).observer.pending, quiet]
      rfl

def Faultless (s : Session) : List Action → Prop
  | [] => True
  | a :: rest => (a.target?.isSome → (s.step a).1.isFault = false) ∧ (s.step a).2.Faultless rest

theorem pending_run (hl : s.observer.pending = .ofList l) {actions : List Action} (h : s.Faultless actions) :
    (s.run actions).observer.pending = .ofList ((s.logged actions).foldl Event.track l) := by
  induction actions generalizing s l with
  | nil =>
      rw [logged_nil]
      exact hl
  | cons a rest ih =>
      rw [logged_cons, List.foldl_append]
      exact ih ((s.log_step a).2.pending hl h.1) h.2

/-- The last capture of the run that stopped at a fault is the last action of `before`. -/
structure SinceFault (s : Session) (actions before after : List Action) : Prop where
  split : actions = before ++ after
  stopped : before = [] ∨ ∃ earlier a, before = earlier ++ [a] ∧ a.target?.isSome ∧
    ((s.run earlier).step a).1.isFault
  faultless : (s.run before).Faultless after

theorem exists_sinceFault (s : Session) (actions : List Action) : ∃ before after, s.SinceFault actions before after := by
  induction actions generalizing s with
  | nil => exact ⟨[], [], rfl, .inl rfl, trivial⟩
  | cons a rest ih =>
      obtain ⟨before, after, rfl, hstopped, hfaultless⟩ := ih (s.step a).2
      rcases hstopped with rfl | ⟨earlier, b, rfl, htarget, hfault⟩
      · by_cases ha : a.target?.isSome ∧ (s.step a).1.isFault
        · exact ⟨[a], after, rfl, .inr ⟨[], a, rfl, ha⟩, hfaultless⟩
        · refine ⟨[], a :: after, rfl, .inl rfl, fun htarget => ?_, hfaultless⟩
          exact Bool.eq_false_iff.mpr fun hfault => ha ⟨htarget, hfault⟩
      · exact ⟨a :: (earlier ++ [b]), after, rfl, .inr ⟨a :: earlier, b, rfl, htarget, hfault⟩, hfaultless⟩

theorem SinceFault.pending {actions before after : List Action} (h : s.SinceFault actions before after)
    (hnew : s.observer.pending = .ofList []) :
    (s.run actions).observer.pending = .ofList (Event.outstanding ((s.run before).logged after)) := by
  obtain ⟨rfl, hstopped, hfaultless⟩ := h
  rw [run_append]
  refine pending_run ?_ hfaultless
  rcases hstopped with rfl | ⟨earlier, a, rfl, htarget, -⟩
  · exact hnew
  · obtain ⟨target, htarget⟩ := Option.isSome_iff_exists.mp htarget
    rw [run_append]
    exact ((s.run earlier).step_captures htarget).pending

end pending

section captures

variable {target : Option Phase}

theorem target?_of_onlyRegisters (h : a.onlyRegisters) : a.target? = none := by
  cases a with
  | capturePhase | captureInto => cases h
  | _ => rfl

theorem appended_of_target (h : a.target? = some target) (u : Option Phase) :
    s.appended [a] u = if target = u then s.observer.pending.capture s.reader else [] := by
  change ((s.step a).2.collected u).drop _ = _
  rw [(s.step_captures h).collected, List.drop_left]

theorem appended_of_kept (h : a.target? = none) (u : Option Phase) : s.appended [a] u = [] := by
  change ((s.step a).2.collected u).drop _ = _
  rw [(s.step_registers h).collected, List.drop_length]

theorem collected_step (s : Session) (a : Action) (u : Option Phase) :
    (s.step a).2.collected u = s.collected u ++ s.appended [a] u := by
  cases ha : a.target? with
  | none => rw [appended_of_kept ha, (s.step_registers ha).collected, List.append_nil]
  | some target => rw [appended_of_target ha, (s.step_captures ha).collected]

theorem Logs.capture? (h : s.Logs a events) :
    events.filterMap Event.capture? =
      a.target?.elim [] fun target =>
        if (s.step a).1.isFault || (s.appended [a] target).isEmpty then []
        else [.of target (s.appended [a] target)] := by
  cases h with
  | registers registers aside =>
      rw [target?_of_onlyRegisters registers, List.filterMap_append, Event.filterMap_capture?_of_aside aside,
        Registration.filterMap_capture?_events]
      rfl
  | captures captures =>
      rename_i target
      rw [captures, Option.elim_some, isFault_step_of_target captures, appended_of_target captures, if_pos rfl,
        List.filterMap_append, Observer.filterMap_capture?_attachmentEvents, List.nil_append, Observer.captureEvents]
      cases hfault : s.observer.pending.captureFault? with
      | some f => simp
      | none =>
          have hlength := Coverage.length_capture hfault s.reader
          have hbytes := Coverage.totalBytes_capture hfault s.reader
          rw [CaptureNote.of, hlength, hbytes, Coverage.isEmpty_capture hfault]
          by_cases hempty : s.observer.pending.isEmpty <;> simp [hempty, Event.capture?]
  | sets kept quiet aside =>
      rw [kept, Event.filterMap_capture?_of_aside aside]
      rfl

end captures

section bytes

def recordBytes (s : Session) : Nat := (s.observer.record.getD .empty).totalBytes

theorem recordBytes_eq (s : Session) :
    s.recordBytes =
      Observation.totalBytes (s.collected (some .read)) + Observation.totalBytes (s.collected (some .write)) := rfl

/-- The observations that got into the record by captures that stopped at a fault. -/
def untold (s : Session) (registered : List (Nat × Nat)) (actions : List Action) : List Observation :=
  ((s.captureCalls registered actions).filter fun c => c.target.isSome && c.answer.isFault).flatMap CaptureCall.block

variable {l : List (Nat × Nat)}

theorem recordBytes_of_kept (h : a.target? = none) : (s.step a).2.recordBytes = s.recordBytes := by
  rw [recordBytes, (s.step_registers h).observer.record, recordBytes]

theorem recordBytes_of_target {target : Option Phase} (h : a.target? = some target) :
    (s.step a).2.recordBytes =
      s.recordBytes + if target.isSome then Observation.totalBytes (s.observer.pending.capture s.reader) else 0 := by
  have hcollected := (s.step_captures h).collected
  rw [recordBytes_eq, recordBytes_eq, hcollected, hcollected, Observation.totalBytes_append,
    Observation.totalBytes_append]
  cases target with
  | none => rfl
  | some phase =>
      cases phase with
      | read => exact Nat.add_right_comm _ _ _
      | write => exact (Nat.add_assoc _ _ _).symm

theorem recordedBytes_of_kept (h : a.target? = none) : Event.recordedBytes (s.logged [a]) = 0 := by
  rw [Event.recordedBytes, (s.log_step a).2.capture?, h]
  rfl

theorem recordedBytes_of_target {target : Option Phase} (h : a.target? = some target) :
    Event.recordedBytes (s.logged [a]) =
      if target.isSome && !(s.step a).1.isFault then Observation.totalBytes (s.observer.pending.capture s.reader)
      else 0 := by
  rw [Event.recordedBytes, (s.log_step a).2.capture?, h, Option.elim_some, appended_of_target h, if_pos rfl]
  cases (s.step a).1.isFault with
  | true => simp
  | false =>
      cases s.observer.pending.capture s.reader with
      | nil => simp [Observation.totalBytes]
      | cons o os => simp [CaptureNote.of]

theorem untold_of_kept (h : a.target? = none) (rest : List Action) :
    s.untold l (a :: rest) = (s.step a).2.untold (l ++ s.registrations a) rest := by
  rw [untold, captureCalls_of_registers h, untold]

theorem untold_of_target {target : Option Phase} (h : a.target? = some target)
    (hl : s.observer.pending = .ofList l) (rest : List Action) :
    Observation.totalBytes (s.untold l (a :: rest)) =
      (if target.isSome && (s.step a).1.isFault then Observation.totalBytes (s.observer.pending.capture s.reader)
        else 0) + Observation.totalBytes ((s.step a).2.untold [] rest) := by
  rw [untold, captureCalls_of_captures h, List.filter_cons, untold, hl]
  split
  · rw [List.flatMap_cons, Observation.totalBytes_append, CaptureCall.block]
  · exact (Nat.zero_add _).symm

theorem recordBytes_run (hl : s.observer.pending = .ofList l) (actions : List Action) :
    (s.run actions).recordBytes =
      s.recordBytes + Event.recordedBytes (s.logged actions) + Observation.totalBytes (s.untold l actions) := by
  induction actions generalizing s l with
  | nil =>
      rw [logged_nil]
      rfl
  | cons a rest ih =>
      change ((s.step a).2.run rest).recordBytes = _
      rw [logged_cons, Event.recordedBytes_append]
      cases ha : a.target? with
      | none =>
          rw [ih (pending_of_registers hl (s.step_registers ha)), recordBytes_of_kept ha, recordedBytes_of_kept ha,
            untold_of_kept ha, Nat.zero_add]
      | some target =>
          rw [ih (s.step_captures ha).pending, recordBytes_of_target ha, recordedBytes_of_target ha,
            untold_of_target ha hl]
          cases target.isSome with
          | false =>
              simp only [Bool.false_and, Bool.false_eq_true, if_false]
              omega
          | true =>
              -- The block is told by the log or not, as the capture went through or stopped.
              cases (s.step a).1.isFault with
              | false =>
                  simp only [Bool.true_and, Bool.not_false, Bool.false_eq_true, if_false, if_true]
                  omega
              | true =>
                  simp only [Bool.true_and, Bool.not_true, Bool.false_eq_true, if_false, if_true]
                  omega

end bytes

section attachment

theorem Logs.attachment? (h : s.Logs a events) :
    events.filterMap Event.attachment? =
      if s.observer.record = none ∧ (s.step a).2.observer.record.isSome then
        [(s.observer.commandName, s.observer.attachments.length)]
      else [] := by
  cases h with
  | registers registers aside =>
      rw [List.filterMap_append, Event.filterMap_attachment?_of_aside aside,
        Registration.filterMap_attachment?_events, (s.step_enters registers).observer.record]
      cases s.observer.record <;> simp
  | captures captures =>
      rename_i target
      have hcomes : (s.observer.record = none ∧ (s.step a).2.observer.record.isSome) ↔
          target.isSome ∧ s.observer.record = none ∧ ¬s.observer.pending.isEmpty := by
        rw [← Option.ne_none_iff_isSome, ← Option.ne_none_iff_isSome, ne_eq, (s.step_captures captures).record]
        tauto
      rw [List.filterMap_append, Observer.filterMap_attachment?_captureEvents, List.append_nil,
        Observer.attachmentEvents]
      simp only [hcomes]
      split <;> rfl
  | sets kept quiet aside =>
      rw [Event.filterMap_attachment?_of_aside aside, (s.step_registers kept).observer.record]
      cases s.observer.record <;> simp

theorem attached_of_record (hnone : s.observer.record = none) (hsome : (s.step a).2.observer.record.isSome) :
    s.attached a = [.record] := by
  by_cases ha : ∃ phase, a = .capturePhase phase
  · obtain ⟨phase, rfl⟩ := ha
    refine if_pos ⟨hnone, fun hempty => ?_⟩
    rw [record_step_capturePhase, if_pos hempty, hnone] at hsome
    cases hsome
  · rw [record_step_of_ne s (not_exists.mp ha), hnone] at hsome
    cases hsome

theorem length_attachment?_run (s : Session) (actions : List Action) :
    (if s.observer.record.isSome then 1 else 0) + ((s.logged actions).filterMap Event.attachment?).length =
      if (s.run actions).observer.record.isSome then 1 else 0 := by
  induction actions generalizing s with
  | nil =>
      rw [logged_nil]
      rfl
  | cons a rest ih =>
      change _ = if ((s.step a).2.run rest).observer.record.isSome then 1 else 0
      rw [← ih, logged_cons, List.filterMap_append, List.length_append, (s.log_step a).2.attachment?]
      cases hs : s.observer.record with
      | some r =>
          rw [isSome_record_step (by rw [hs]; rfl) a]
          simp
      | none => cases (s.step a).2.observer.record <;> simp

def PlaceTold (s : Session) : Prop :=
  ∀ command i, .recordAttached command i ∈ s.observer.log → s.observer.attachments[i]? = some .record

theorem PlaceTold.step (h : s.PlaceTold) (a : Action) : (s.step a).2.PlaceTold := by
  intro command i hmem
  rw [(s.log_step a).1] at hmem
  rw [attachments_step]
  rcases List.mem_append.mp hmem with hold | hnew
  · have hi := h command i hold
    rw [List.getElem?_append_left (List.getElem?_eq_some_iff.mp hi).1, hi]
  · have hplace : (command, i) ∈ (s.logged [a]).filterMap Event.attachment? :=
      List.mem_filterMap.mpr ⟨_, hnew, rfl⟩
    rw [(s.log_step a).2.attachment?] at hplace
    split at hplace
    · rename_i hcomes
      cases List.mem_singleton.mp hplace
      rw [attached_of_record hcomes.1 hcomes.2, List.getElem?_concat_length]
    · cases hplace

theorem PlaceTold.run (h : s.PlaceTold) (actions : List Action) : (s.run actions).PlaceTold := by
  induction actions generalizing s with
  | nil => exact h
  | cons a rest ih => exact ih (h.step a)

end attachment

theorem RecordPlaced.eq_of_entries (h : s.RecordPlaced) (hnone : s.observer.record = none)
    (hnil : s.observer.attachments = []) {actions : List Action} {i : Nat}
    (hi : (s.run actions).observer.attachments[i]? = some .record) (j : Nat) :
    (s.run actions).observer.attachments[j]? = some .record ↔ j = i := by
  rcases s.everyCapture_or_firstCapture actions with hidle | ⟨before, phase, after, hfirst⟩
  · have hsome := (h.run actions).isSome_of_mem (List.mem_of_getElem? hi)
    rw [(attachments_run_of_isEmpty hidle hnone).1] at hsome
    cases hsome
  · rw [(hfirst.run hnone).2, hnil, List.nil_append] at hi ⊢
    rw [externals, externals, getElem?_eq_record_iff] at hi ⊢
    rw [hi]

structure Tells (s : Session) (a : Action) : Prop where
  log : (s.step a).2.observer.log = s.observer.log ++ s.logged [a]
  collected : ∀ target, (s.step a).2.collected target = s.collected target ++ s.appended [a] target
  elsewhere : ∀ target, a.target? ≠ some target → s.appended [a] target = []
  captures : (s.logged [a]).filterMap Event.capture? =
    a.target?.elim [] fun target =>
      if (s.step a).1.isFault || (s.appended [a] target).isEmpty then []
      else [.of target (s.appended [a] target)]
  attachment : (s.logged [a]).filterMap Event.attachment? =
    if s.observer.record = none ∧ (s.step a).2.observer.record.isSome then
      [(s.observer.commandName, s.observer.attachments.length)]
    else []

theorem tells (s : Session) (a : Action) : s.Tells a where
  log := (s.log_step a).1
  collected := s.collected_step a
  elsewhere u hu := by
    cases ha : a.target? with
    | none => exact appended_of_kept ha u
    | some target => exact (appended_of_target ha u).trans (if_neg fun h => hu (by rw [ha, h]))
  captures := (s.log_step a).2.capture?
  attachment := (s.log_step a).2.attachment?

/-- After any run the log tells what is pending: the ranges it names since the last capture it names, of what was logged
since a capture stopped at a fault. Each action logs a capture just when it appends observations to the record or the
caller's list without a fault, with their number and bytes; so the log tells the bytes of the record, but for those of
captures that stopped at a fault. The record's place is logged once, by the action that brings the record into being,
and there the extras show the record from then on. -/
theorem log_tells_session (config : ObserverConfig) (readerOf : Memory → Memory → Reader)
    (placement : PoolPlacement) (source : ChunkSource) (actions : List Action) :
    let start := Session.new config readerOf placement source
    let s := start.run actions
    (∃ before after, start.SinceFault actions before after) ∧
    (∀ before after, start.SinceFault actions before after →
      s.observer.pending = .ofList (Event.outstanding ((start.run before).logged after))) ∧
    (∀ a, s.Tells a) ∧
    ((s.observer.record.getD .empty).totalBytes =
      Event.recordedBytes s.observer.log + Observation.totalBytes (start.untold [] actions)) ∧
    ((s.observer.log.filterMap Event.attachment?).length = if s.observer.record.isSome then 1 else 0) ∧
    ∀ command i, .recordAttached command i ∈ s.observer.log → ∀ (more : List Action) (j : Nat),
      (∃ r, (s.run more).observer.extras.items[j]? = some (.record r)) ↔ j = i := by
  intro start s
  have hnone : start.observer.record = none := rfl
  have hlog : s.observer.log = start.logged actions := (start.log_run actions).trans (List.nil_append _)
  have hplaced : start.RecordPlaced := recordPlaced_new config readerOf placement source
  have htold : start.PlaceTold := fun _ _ hmem => absurd hmem List.not_mem_nil
  refine ⟨start.exists_sinceFault actions, fun before after h => h.pending rfl, s.tells, ?_, ?_,
    fun command i hmem more j => ?_⟩
  · have hbytes := recordBytes_run (s := start) (l := []) rfl actions
    rw [← hlog] at hbytes
    exact hbytes.trans (congrArg (· + _) (Nat.zero_add _))
  · rw [hlog]
    exact (Nat.zero_add _).symm.trans (start.length_attachment?_run actions)
  · have hmore : s.run more = start.run (actions ++ more) := (start.run_append actions more).symm
    have hi : (s.run more).observer.attachments[i]? = some .record := by
      refine (htold.run actions).run more command i ?_
      rw [log_run]
      exact List.mem_append_left _ hmem
    rw [Observer.extras, Extras.getElem?_items_eq_record ((hplaced.run actions).run more).isSome_item?]
    rw [hmore] at hi ⊢
    exact hplaced.eq_of_entries hnone rfl hi j

theorem range_behind_fault_told :
    let s := (Session.new .lightweight (fun _ _ => Memory.pattern.reader) AddressSpace.placePool
      AddressSpace.placeChunk).run [.register .read 0 (2 ^ 63), .capturePhase .read, .register .read 5 2]
    s.observer.pending = .ofList [(5, 2)] ∧
      ∀ more, ∃ r, (s.run more).observer.extras.items[0]? = some (.record r) := by
  intro s
  obtain ⟨-, hpending, -, -, -, hplace⟩ := log_tells_session .lightweight (fun _ _ => Memory.pattern.reader)
    AddressSpace.placePool AddressSpace.placeChunk
    [.register .read 0 (2 ^ 63), .capturePhase .read, .register .read 5 2]
  refine ⟨?_, fun more => ?_⟩
  · refine hpending [.register .read 0 (2 ^ 63), .capturePhase .read] [.register .read 5 2] ⟨rfl, .inr ?_, ?_⟩
    · exact ⟨[.register .read 0 (2 ^ 63)], .capturePhase .read, rfl, rfl, rfl⟩
    · exact ⟨nofun, trivial⟩
  · exact (hplace none 0 (by decide) more 0).mpr rfl

/-- A range that no observation can show is gone after the capture, but the log has only its registration. -/
theorem stopped_capture_untold :
    ¬∀ actions : List Action,
      let s := (Session.new .lightweight (fun _ _ => Memory.pattern.reader) AddressSpace.placePool
        AddressSpace.placeChunk).run actions
      s.observer.pending = .ofList (Event.outstanding s.observer.log) := by
  intro h
  exact absurd (h [.register .read 0 (2 ^ 63), .capturePhase .read]) (by decide)

end Session

end CallCapture
