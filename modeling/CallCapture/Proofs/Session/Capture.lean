import CallCapture.Proofs.Coverage.Canonical
import CallCapture.Proofs.Session.Registrations

namespace CallCapture

/-- A capture in a run: where its observations go, what was registered since the capture before, what it reads
through, and the answer to it. -/
structure CaptureCall where
  target : Option Phase
  registered : List (Nat × Nat)
  reader : Reader
  answer : Answer

namespace CaptureCall

def block (c : CaptureCall) : List Observation := (Coverage.ofList c.registered).capture c.reader

/-- The block shows the maximal intervals of what was registered, ascending, each as the reader gave it. Only an
interval that no block of memory can hold ends the block early, and the answer is then the fault. -/
structure Exact (c : CaptureCall) : Prop where
  intervals : ∃ l : List AddressRange, (l.Pairwise fun r s => r.stop < s.start) ∧
    (∀ r, r ∈ l ↔ r.IsMaximal (Inserted c.registered)) ∧
    c.block = (l.takeWhile AddressRange.fits).map (AddressRange.capture c.reader)
  bytes : ∀ o ∈ c.block, o.bytes = c.reader.bytes o.address.toNat o.length
  apart : c.block.Pairwise fun o p => o.address.toNat + o.length < p.address.toNat
  registered : ∀ o ∈ c.block, ∀ a, o.Shows a → Inserted c.registered a
  complete : (∀ f, c.answer ≠ .fault f) → ∀ a, Inserted c.registered a → ∃! o, o ∈ c.block ∧ o.Shows a
  faults : ∀ f, c.answer = .fault f ↔
    f = .captureOverflow ∧ ∃ r : AddressRange, r.IsMaximal (Inserted c.registered) ∧ maxBlockSize < r.length

end CaptureCall

theorem CaptureCall.exact_of_answer {c : CaptureCall}
    (h : ∀ f, c.answer = .fault f ↔ (Coverage.ofList c.registered).captureFault? = some f) : c.Exact where
  intervals := ⟨(Coverage.ofList c.registered).ranges, Coverage.canonical_ofList _,
    Coverage.mem_ranges_ofList_iff c.registered, rfl⟩
  bytes := by
    intro o ho
    obtain ⟨r, -, rfl⟩ := Coverage.mem_capture ho
    exact AddressRange.bytes_capture c.reader r
  apart := Coverage.apart_capture (Coverage.canonical_ofList _) c.reader
  registered := by
    intro o ho a hoa
    obtain ⟨r, hr, rfl⟩ := Coverage.mem_capture ho
    exact (Coverage.mem_ofList c.registered a).mp ⟨r, hr, (AddressRange.shows_capture c.reader r a).mp hoa⟩
  complete := by
    intro hanswer a ha
    have hfits : (Coverage.ofList c.registered).captureFault? = none := by
      apply Option.eq_none_iff_forall_ne_some.mpr
      exact fun f hf => hanswer f ((h f).mpr hf)
    exact (Coverage.canonical_ofList _).existsUnique_shows hfits c.reader
      ((Coverage.mem_ofList c.registered a).mpr ha)
  faults := by
    intro f
    rw [h, Coverage.captureFault?_eq_some]
    simp only [Coverage.mem_ranges_ofList_iff]

def Record.observations (r : Record) : Phase → List Observation
  | .read => r.reads
  | .write => r.writes

theorem Record.observations_append (r : Record) (phase : Phase) (os : List Observation) (q : Phase) :
    (r.append phase os).observations q = r.observations q ++ if phase = q then os else [] := by
  cases phase <;> cases q <;> simp [append, observations]

namespace Session

def collected (s : Session) : Option Phase → List Observation
  | some phase => (s.observer.record.getD .empty).observations phase
  | none => s.captured

def captureCalls (s : Session) (registered : List (Nat × Nat)) : List Action → List CaptureCall
  | [] => []
  | a :: rest =>
    match a.target? with
    | some target => ⟨target, registered, s.reader, (s.step a).1⟩ :: (s.step a).2.captureCalls [] rest
    | none => (s.step a).2.captureCalls (registered ++ s.registrations a) rest

structure Captures (s : Session) (target : Option Phase) (answer : Answer) (t : Session) : Prop where
  pending : t.observer.pending = .ofList []
  collected : ∀ u, t.collected u = s.collected u ++ if target = u then s.observer.pending.capture s.reader else []
  record : t.observer.record = none ↔
    s.observer.record = none ∧ (target ≠ none → s.observer.pending.isEmpty)
  faults : ∀ f, answer = .fault f ↔ s.observer.pending.captureFault? = some f

theorem captures_capturePhase (s : Session) (phase : Phase) :
    s.Captures (some phase) (s.step (.capturePhase phase)).1 (s.step (.capturePhase phase)).2 := by
  have hpending := Observer.pending_capturePhase s.observer s.reader phase
  have hrecord := Observer.record_capturePhase s.observer s.reader phase
  have herror := Observer.capturePhase_eq_error s.observer s.reader phase
  have hanswer : ∀ f, (s.step (.capturePhase phase)).1 = .fault f ↔
      (s.observer.capturePhase s.reader phase).1 = .error f := by
    intro f
    simp only [step]
    cases s.observer.capturePhase s.reader phase with
    | mk result p => cases result <;> simp
  rw [state_step_capturePhase]
  refine ⟨hpending, ?_, ?_, fun f => (hanswer f).trans (herror f)⟩
  · rintro (_ | q)
    · simp [collected]
    · by_cases hempty : s.observer.pending.isEmpty
      · rw [if_pos hempty] at hrecord
        simp [collected, hrecord, Coverage.eq_empty_of_isEmpty hempty, Coverage.capture, Coverage.empty]
      · rw [if_neg hempty] at hrecord
        simp [collected, hrecord, Record.observations_append]
  · by_cases hempty : s.observer.pending.isEmpty
    · rw [if_pos hempty] at hrecord
      simp [hrecord, hempty]
    · rw [if_neg hempty] at hrecord
      simp [hrecord, hempty]

theorem captures_captureInto (s : Session) :
    s.Captures none (s.step .captureInto).1 (s.step .captureInto).2 := by
  have hpending := Observer.pending_captureInto s.observer s.reader s.captured
  have hrecord := Observer.record_captureInto s.observer s.reader s.captured
  have hcaptured := Observer.captured_captureInto s.observer s.reader s.captured
  have herror := Observer.captureInto_eq_error s.observer s.reader s.captured
  have hanswer : ∀ f, (s.step .captureInto).1 = .fault f ↔
      (s.observer.captureInto s.reader s.captured).1 = .error f := by
    intro f
    simp only [step]
    cases s.observer.captureInto s.reader s.captured with
    | mk result p => cases result <;> simp
  rw [state_step_captureInto]
  refine ⟨hpending, ?_, ?_, fun f => (hanswer f).trans (herror f)⟩
  · rintro (_ | q)
    · simp [collected, hcaptured]
    · simp [collected, hrecord]
  · simp [hrecord]

theorem step_captures (s : Session) {a : Action} {target : Option Phase} (h : a.target? = some target) :
    s.Captures target (s.step a).1 (s.step a).2 := by
  cases a with
  | capturePhase phase =>
      cases h
      exact captures_capturePhase s phase
  | captureInto =>
      cases h
      exact captures_captureInto s
  | _ => cases h

theorem Registers.collected {s t : Session} {l : List (Nat × Nat)} (h : s.Registers l t) (u : Option Phase) :
    t.collected u = s.collected u := by
  cases u with
  | none => exact h.captured
  | some phase => exact congrArg (fun r => (r.getD .empty).observations phase) h.observer.record

section run

variable {s : Session} {l : List (Nat × Nat)}

theorem captureCalls_of_registers {a : Action} (h : a.target? = none) (rest : List Action) :
    s.captureCalls l (a :: rest) = (s.step a).2.captureCalls (l ++ s.registrations a) rest := by
  rw [captureCalls, h]

theorem captureCalls_of_captures {a : Action} {target : Option Phase} (h : a.target? = some target)
    (rest : List Action) :
    s.captureCalls l (a :: rest) =
      ⟨target, l, s.reader, (s.step a).1⟩ :: (s.step a).2.captureCalls [] rest := by
  rw [captureCalls, h]

theorem pending_of_registers {t : Session} {m : List (Nat × Nat)} (h : s.observer.pending = .ofList l)
    (hr : s.Registers m t) : t.observer.pending = .ofList (l ++ m) := by
  rw [hr.observer.pending, h, Coverage.ofList_append]

theorem collected_run (h : s.observer.pending = .ofList l) (actions : List Action) (u : Option Phase) :
    (s.run actions).collected u =
      s.collected u ++ ((s.captureCalls l actions).filter (·.target = u)).flatMap CaptureCall.block := by
  -- `l` follows what is registered: a registration extends it, a capture starts it afresh
  induction actions generalizing s l with
  | nil => exact (List.append_nil _).symm
  | cons a rest ih =>
      change ((s.step a).2.run rest).collected u = _
      cases ha : a.target? with
      | none =>
          have hr := s.step_registers ha
          rw [captureCalls_of_registers ha, ih (pending_of_registers h hr), hr.collected]
      | some target =>
          have hc := s.step_captures ha
          rw [captureCalls_of_captures ha, ih hc.pending, hc.collected, h]
          by_cases hu : target = u
          · simp [hu, CaptureCall.block]
          · simp [hu]

theorem record_run_eq_none (h : s.observer.pending = .ofList l) (actions : List Action) :
    (s.run actions).observer.record = none ↔ s.observer.record = none ∧
      ∀ c ∈ s.captureCalls l actions, c.target ≠ none → (Coverage.ofList c.registered).isEmpty := by
  induction actions generalizing s l with
  | nil => exact ⟨fun hr => ⟨hr, fun _ hc => absurd hc List.not_mem_nil⟩, And.left⟩
  | cons a rest ih =>
      change ((s.step a).2.run rest).observer.record = none ↔ _
      cases ha : a.target? with
      | none =>
          have hr := s.step_registers ha
          rw [captureCalls_of_registers ha, ih (pending_of_registers h hr), hr.observer.record]
      | some target =>
          have hc := s.step_captures ha
          rw [captureCalls_of_captures ha, ih hc.pending, hc.record, h, List.forall_mem_cons, and_assoc]

theorem exact_of_mem_captureCalls (h : s.observer.pending = .ofList l) {actions : List Action} {c : CaptureCall}
    (hc : c ∈ s.captureCalls l actions) : c.Exact := by
  induction actions generalizing s l with
  | nil => cases hc
  | cons a rest ih =>
      cases ha : a.target? with
      | none =>
          rw [captureCalls_of_registers ha] at hc
          exact ih (pending_of_registers h (s.step_registers ha)) hc
      | some target =>
          have hstep := s.step_captures ha
          rw [captureCalls_of_captures ha] at hc
          rcases List.mem_cons.mp hc with rfl | hc
          · apply CaptureCall.exact_of_answer
            intro f
            rw [hstep.faults, h]
          · exact ih hstep.pending hc

end run

/-- After any run the record's two lists and the caller's list are the blocks of the captures that went there, in
order, and every block is exact. There is no record as long as no capture into it found a registered address. -/
theorem run_captures_exactly (config : ObserverConfig) (readerOf : Memory → Memory → Reader)
    (placement : PoolPlacement) (source : ChunkSource) (actions : List Action) :
    let s := Session.new config readerOf placement source
    let calls := s.captureCalls [] actions
    (((s.run actions).observer.record.getD .empty).reads =
        (calls.filter (·.target = some .read)).flatMap CaptureCall.block) ∧
    (((s.run actions).observer.record.getD .empty).writes =
        (calls.filter (·.target = some .write)).flatMap CaptureCall.block) ∧
    ((s.run actions).captured = (calls.filter (·.target = none)).flatMap CaptureCall.block) ∧
    ((s.run actions).observer.record = none ↔
      ∀ c ∈ calls, c.target ≠ none → ∀ a, ¬Inserted c.registered a) ∧
    ∀ c ∈ calls, c.Exact := by
  intro s calls
  have h : s.observer.pending = .ofList [] := rfl
  refine ⟨?_, ?_, ?_, ?_, fun c hc => exact_of_mem_captureCalls h hc⟩
  · exact collected_run h actions (some .read)
  · exact collected_run h actions (some .write)
  · exact collected_run h actions none
  · rw [record_run_eq_none h]
    simp only [Coverage.isEmpty_iff_forall_not_mem, Coverage.mem_ofList]
    exact and_iff_right rfl

theorem touching_ranges_captured_once :
    let s := Session.new .fullFidelity (fun m _ => m.reader) AddressSpace.placePool AddressSpace.placeChunk
    ∃ c ∈ s.captureCalls [] [.register .read 8 2, .register .write 6 2, .poke 9 [7], .capturePhase .read],
      c.Exact ∧ c.block.map Observation.bytes = [[0, 0, 0, 7]] := by
  intro s
  have h := (run_captures_exactly .fullFidelity (fun m _ => m.reader) AddressSpace.placePool AddressSpace.placeChunk
    [.register .read 8 2, .register .write 6 2, .poke 9 [7], .capturePhase .read]).2.2.2.2
  exact ⟨_, List.mem_cons_self, h _ List.mem_cons_self, rfl⟩

/-- Half of all addresses can be registered, but no observation can show them. -/
theorem capture_of_half_incomplete :
    ¬∀ actions : List Action,
      let s := Session.new .lightweight (fun _ _ => Memory.pattern.reader) AddressSpace.placePool
        AddressSpace.placeChunk
      ∀ c ∈ s.captureCalls [] actions, ∀ a, Inserted c.registered a → ∃ o ∈ c.block, o.Shows a := by
  intro h
  have hregistered : Inserted [(0, 2 ^ 63)] 0 := ⟨(0, 2 ^ 63), List.mem_cons_self, by decide⟩
  obtain ⟨o, ho, -⟩ := h [.register .read 0 (2 ^ 63), .capturePhase .read] _ List.mem_cons_self 0 hregistered
  cases ho

end Session

end CallCapture
