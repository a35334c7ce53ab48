import CallCapture.Proofs.Session.Attachments
import CallCapture.Proofs.Wire.Extras

namespace CallCapture

def Attachment.item? (record : Option Record) : Attachment → Option AttachedExtra
  | .record => record.map .record
  | .external extra => some (.external extra)

namespace Extras

variable {record : Option Record} {entries : List Attachment}

theorem next?_of_item? {a : Attachment} {item : AttachedExtra} (h : a.item? record = some item)
    (rest : List Attachment) : next? ⟨a :: rest, record⟩ = some (item, ⟨rest, record⟩) := by
  cases a with
  | external extra =>
      cases h
      rfl
  | record =>
      obtain ⟨r, rfl, rfl⟩ := Option.map_eq_some_iff.mp h
      rfl

theorem walk_of_item? {a : Attachment} {item : AttachedExtra} (h : a.item? record = some item)
    (rest : List Attachment) :
    walk ⟨a :: rest, record⟩ =
      ((⟨a :: rest, record⟩, item) :: (walk ⟨rest, record⟩).1, (walk ⟨rest, record⟩).2) :=
  walk_of_next? (next?_of_item? h rest)

theorem items_of_item? {a : Attachment} {item : AttachedExtra} (h : a.item? record = some item)
    (rest : List Attachment) : items ⟨a :: rest, record⟩ = item :: items ⟨rest, record⟩ :=
  items_of_next? (next?_of_item? h rest)

theorem walk_shows (h : ∀ a ∈ entries, (a.item? record).isSome) :
    List.Forall₂ (fun a p => a.item? record = some p.2) entries (walk ⟨entries, record⟩).1 := by
  induction entries with
  | nil =>
      rw [walk_nil]
      exact .nil
  | cons a rest ih =>
      obtain ⟨item, hitem⟩ := Option.isSome_iff_exists.mp (h a List.mem_cons_self)
      rw [walk_of_item? hitem]
      exact .cons hitem (ih fun b hb => h b (List.mem_cons_of_mem a hb))

theorem sizeHint_walk (h : ∀ a ∈ entries, (a.item? record).isSome) {before after : List (Extras × AttachedExtra)}
    {p : Extras × AttachedExtra} (hwalk : (walk ⟨entries, record⟩).1 = before ++ p :: after) :
    p.1.sizeHint.2 = (p :: after).length := by
  have hlength := (walk_shows h).length_eq
  induction entries generalizing before with
  | nil =>
      rw [walk_nil] at hwalk
      simp at hwalk
  | cons a rest ih =>
      obtain ⟨item, hitem⟩ := Option.isSome_iff_exists.mp (h a List.mem_cons_self)
      have hrest := fun b hb => h b (List.mem_cons_of_mem a hb)
      cases before with
      | nil =>
          rw [hwalk] at hlength
          rw [walk_of_item? hitem] at hwalk
          cases hwalk
          exact hlength
      | cons q before =>
          rw [walk_of_item? hitem] at hwalk
          exact ih hrest (List.cons.inj hwalk).2 (walk_shows hrest).length_eq

theorem entries_of_walk (h : ∀ a ∈ entries, (a.item? record).isSome) :
    (walk ⟨entries, record⟩).2.entries = [] := by
  induction entries with
  | nil => rw [walk_nil]
  | cons a rest ih =>
      obtain ⟨item, hitem⟩ := Option.isSome_iff_exists.mp (h a List.mem_cons_self)
      rw [walk_of_item? hitem]
      exact ih fun b hb => h b (List.mem_cons_of_mem a hb)

theorem getElem?_items_eq_record (h : ∀ a ∈ entries, (a.item? record).isSome) (i : Nat) :
    (∃ r, (items ⟨entries, record⟩)[i]? = some (.record r)) ↔ entries[i]? = some .record := by
  induction entries generalizing i with
  | nil =>
      rw [items_nil]
      simp
  | cons a rest ih =>
      obtain ⟨item, hitem⟩ := Option.isSome_iff_exists.mp (h a List.mem_cons_self)
      rw [items_of_item? hitem]
      cases i with
      | zero =>
          cases a with
          | external extra =>
              cases hitem
              simp
          | record =>
              obtain ⟨r, -, rfl⟩ := Option.map_eq_some_iff.mp hitem
              simp
      | succ i => exact ih (fun b hb => h b (List.mem_cons_of_mem a hb)) i

end Extras

theorem Record.isEmpty_append (r : Record) (phase : Phase) (os : List Observation) :
    (r.append phase os).isEmpty ↔ r.isEmpty ∧ os = [] := by
  cases phase <;> simp [append, isEmpty, and_assoc, and_left_comm, and_comm]

theorem getElem?_eq_record_iff (l m : List Extra) (i : Nat) :
    (l.map Attachment.external ++ .record :: m.map .external)[i]? = some .record ↔ i = l.length := by
  rcases Nat.lt_trichotomy i l.length with h | rfl | h
  · simp [List.getElem?_append_left, h]
    omega
  · simp
  · obtain ⟨j, rfl⟩ := Nat.exists_eq_add_of_lt h
    simp [List.getElem?_append_right, Nat.add_assoc]

namespace Session

variable {s : Session} {actions : List Action}

def externals (actions : List Action) : List Attachment := (actions.filterMap Action.extra?).map .external

theorem externals_cons (a : Action) (rest : List Action) :
    externals (a :: rest) = a.extra?.toList.map .external ++ externals rest := by
  cases h : a.extra? <;> simp [externals, h]

theorem record_step_capturePhase (s : Session) (phase : Phase) :
    (s.step (.capturePhase phase)).2.observer.record =
      if s.observer.pending.isEmpty then s.observer.record
      else some ((s.observer.record.getD .empty).append phase (s.observer.pending.capture s.reader)) := by
  rw [state_step_capturePhase]
  exact Observer.record_capturePhase s.observer s.reader phase

theorem record_step_of_ne (s : Session) {a : Action} (h : ∀ phase, a ≠ .capturePhase phase) :
    (s.step a).2.observer.record = s.observer.record := by
  cases a with
  | capturePhase phase => exact absurd rfl (h phase)
  | captureInto =>
      rw [state_step_captureInto]
      exact Observer.record_captureInto s.observer s.reader s.captured
  | _ => exact (s.step_registers rfl).observer.record

theorem isSome_record_step (h : s.observer.record.isSome) (a : Action) : (s.step a).2.observer.record.isSome := by
  by_cases ha : ∃ phase, a = .capturePhase phase
  · obtain ⟨phase, rfl⟩ := ha
    rw [record_step_capturePhase]
    split
    · exact h
    · rfl
  · rw [record_step_of_ne s (not_exists.mp ha)]
    exact h

theorem record_step_of_idle {a : Action} (h : ∀ phase, a = .capturePhase phase → s.observer.pending.isEmpty) :
    (s.step a).2.observer.record = s.observer.record := by
  by_cases ha : ∃ phase, a = .capturePhase phase
  · obtain ⟨phase, rfl⟩ := ha
    rw [record_step_capturePhase, if_pos (h phase rfl)]
  · exact record_step_of_ne s (not_exists.mp ha)

theorem attached_of_idle {a : Action} (h : s.observer.record.isSome ∨ ∀ phase, a = .capturePhase phase →
    s.observer.pending.isEmpty) : s.attached a = a.extra?.toList.map .external := by
  cases a with
  | capturePhase phase =>
      refine if_neg fun ⟨hnone, hfound⟩ => ?_
      rcases h with h | h
      · rw [hnone] at h
        cases h
      · exact hfound (h phase rfl)
  | _ => rfl

theorem attachments_run_of_isSome (h : s.observer.record.isSome) (actions : List Action) :
    (s.run actions).observer.record.isSome ∧
      (s.run actions).observer.attachments = s.observer.attachments ++ externals actions := by
  induction actions generalizing s with
  | nil => exact ⟨h, (List.append_nil _).symm⟩
  | cons a rest ih =>
      obtain ⟨hrecord, hattachments⟩ := ih (isSome_record_step h a)
      refine ⟨hrecord, ?_⟩
      change ((s.step a).2.run rest).observer.attachments = _
      rw [hattachments, attachments_step, attached_of_idle (.inl h), externals_cons, List.append_assoc]

def EveryCapture (s : Session) (P : Coverage → Prop) (actions : List Action) : Prop :=
  ∀ before phase after, actions = before ++ .capturePhase phase :: after → P (s.run before).observer.pending

theorem everyCapture_cons {P : Coverage → Prop} {a : Action} {rest : List Action} :
    s.EveryCapture P (a :: rest) ↔
      (∀ phase, a = .capturePhase phase → P s.observer.pending) ∧ (s.step a).2.EveryCapture P rest := by
  constructor
  · intro h
    refine ⟨fun phase ha => h [] phase rest (by rw [ha]; rfl), fun before phase after hrest => ?_⟩
    exact h (a :: before) phase after (by rw [hrest]; rfl)
  · rintro ⟨ha, hrest⟩ before phase after h
    cases before with
    | nil => exact ha phase (List.cons.inj h).1
    | cons b before =>
        obtain ⟨rfl, hsplit⟩ := List.cons.inj h
        exact hrest before phase after hsplit

theorem everyCapture_nil (s : Session) (P : Coverage → Prop) : s.EveryCapture P [] :=
  fun before phase after h => by simp at h

/-- The run reaches its first capture into the record that finds something after `before`. -/
structure FirstCapture (s : Session) (actions before : List Action) (phase : Phase) (after : List Action) : Prop where
  split : actions = before ++ .capturePhase phase :: after
  found : ¬(s.run before).observer.pending.isEmpty
  first : s.EveryCapture (fun c => c.isEmpty) before

theorem attachments_run_of_isEmpty (h : s.EveryCapture (fun c => c.isEmpty) actions)
    (hnone : s.observer.record = none) :
    (s.run actions).observer.record = none ∧
      (s.run actions).observer.attachments = s.observer.attachments ++ externals actions := by
  induction actions generalizing s with
  | nil => exact ⟨hnone, (List.append_nil _).symm⟩
  | cons a rest ih =>
      obtain ⟨ha, hrest⟩ := everyCapture_cons.mp h
      obtain ⟨hrecord, hattachments⟩ := ih hrest ((record_step_of_idle ha).trans hnone)
      refine ⟨hrecord, ?_⟩
      change ((s.step a).2.run rest).observer.attachments = _
      rw [hattachments, attachments_step, attached_of_idle (.inr ha), externals_cons, List.append_assoc]

theorem everyCapture_or_firstCapture (s : Session) (actions : List Action) :
    s.EveryCapture (fun c => c.isEmpty) actions ∨ ∃ before phase after, s.FirstCapture actions before phase after := by
  induction actions generalizing s with
  | nil => exact .inl (everyCapture_nil s _)
  | cons a rest ih =>
      by_cases ha : ∀ phase, a = .capturePhase phase → s.observer.pending.isEmpty
      · rcases ih (s.step a).2 with hrest | ⟨before, phase, after, hsplit, hfound, hfirst⟩
        · exact .inl (everyCapture_cons.mpr ⟨ha, hrest⟩)
        · refine .inr ⟨a :: before, phase, after, by rw [hsplit]; rfl, hfound, ?_⟩
          exact everyCapture_cons.mpr ⟨ha, hfirst⟩
      · simp only [not_forall] at ha
        obtain ⟨phase, rfl, hfound⟩ := ha
        exact .inr ⟨[], phase, rest, rfl, hfound, everyCapture_nil s _⟩

theorem FirstCapture.run {before after : List Action} {phase : Phase} (h : s.FirstCapture actions before phase after)
    (hnone : s.observer.record = none) :
    (s.run actions).observer.record.isSome ∧
      (s.run actions).observer.attachments =
        s.observer.attachments ++ externals before ++ .record :: externals after := by
  obtain ⟨rfl, hfound, hfirst⟩ := h
  obtain ⟨hbefore, hextras⟩ := attachments_run_of_isEmpty hfirst hnone
  have hattached : (s.run before).attached (.capturePhase phase) = [.record] := if_pos ⟨hbefore, hfound⟩
  have hsome : ((s.run before).step (.capturePhase phase)).2.observer.record.isSome := by
    rw [record_step_capturePhase, if_neg hfound]
    rfl
  obtain ⟨hrecord, hattachments⟩ := attachments_run_of_isSome hsome after
  rw [run_append]
  refine ⟨hrecord, ?_⟩
  change (((s.run before).step (.capturePhase phase)).2.run after).observer.attachments = _
  rw [hattachments, attachments_step, hattached, hextras, List.append_assoc _ [_]]
  rfl

theorem isEmpty_record_step (s : Session) (a : Action) :
    ((s.step a).2.observer.record.getD .empty).isEmpty ↔ (s.observer.record.getD .empty).isEmpty ∧
      ∀ phase, a = .capturePhase phase → ∀ r ∈ s.observer.pending.ranges.head?, maxBlockSize < r.length := by
  by_cases ha : ∃ phase, a = .capturePhase phase
  · obtain ⟨phase, rfl⟩ := ha
    have hblock : (∀ p, Action.capturePhase phase = .capturePhase p →
        ∀ r ∈ s.observer.pending.ranges.head?, maxBlockSize < r.length) ↔
          s.observer.pending.capture s.reader = [] := by
      rw [Coverage.capture_eq_nil]
      exact ⟨fun h => h phase rfl, fun h _ _ => h⟩
    rw [hblock, record_step_capturePhase]
    by_cases hempty : s.observer.pending.isEmpty
    · rw [if_pos hempty, Coverage.eq_empty_of_isEmpty hempty]
      exact (and_iff_left rfl).symm
    · rw [if_neg hempty, Option.getD_some, Record.isEmpty_append]
  · rw [record_step_of_ne s (not_exists.mp ha)]
    exact (and_iff_left fun phase hphase => absurd ⟨phase, hphase⟩ ha).symm

theorem isEmpty_record_run (s : Session) (actions : List Action) :
    ((s.run actions).observer.record.getD .empty).isEmpty ↔ (s.observer.record.getD .empty).isEmpty ∧
      s.EveryCapture (fun c => ∀ r ∈ c.ranges.head?, maxBlockSize < r.length) actions := by
  induction actions generalizing s with
  | nil => exact (and_iff_left (everyCapture_nil s _)).symm
  | cons a rest ih =>
      change ((((s.step a).2.run rest).observer.record.getD .empty).isEmpty ↔ _)
      rw [ih, isEmpty_record_step, everyCapture_cons, and_assoc]

theorem attachments_prefix_run (s : Session) (actions : List Action) :
    s.observer.attachments <+: (s.run actions).observer.attachments := by
  induction actions generalizing s with
  | nil => exact List.prefix_rfl
  | cons a rest ih =>
      have hstep : s.observer.attachments <+: (s.step a).2.observer.attachments := by
        rw [attachments_step]
        exact List.prefix_append _ _
      exact hstep.trans (ih (s.step a).2)

theorem attachments_step_eq_or_append (s : Session) (a : Action) :
    (s.step a).2.observer.attachments = s.observer.attachments ∨
      ∃ x, (s.step a).2.observer.attachments = s.observer.attachments ++ [x] := by
  rw [attachments_step]
  cases a with
  | addExtra extra => exact .inr ⟨.external extra, rfl⟩
  | capturePhase phase =>
      rw [attached]
      split
      · exact .inr ⟨.record, rfl⟩
      · exact .inl (List.append_nil _)
  | _ => exact .inl (List.append_nil _)

theorem RecordPlaced.isSome_item? (h : s.RecordPlaced) :
    ∀ a ∈ s.observer.attachments, (a.item? s.observer.record).isSome := by
  intro a ha
  cases a with
  | external extra => rfl
  | record =>
      rw [Attachment.item?, Option.isSome_map]
      exact h.isSome_of_mem ha

/-- After any run the attachments have one entry for the record if there is one, and none otherwise. An action appends
at most one entry, and the record's stands where it was put, behind just the extras that were added before the first
capture into the record that found something; without such a capture there is no record. A record is empty only as long
as all these captures stopped at their first range, which no observation can hold. A walk shows one item for every
entry, in order, and in front of each the upper bound is the number of items to come. -/
theorem record_entered_once (config : ObserverConfig) (readerOf : Memory → Memory → Reader)
    (placement : PoolPlacement) (source : ChunkSource) (actions : List Action) :
    let start := Session.new config readerOf placement source
    let s := start.run actions
    (s.observer.attachments.countP Attachment.isRecord = if s.observer.record.isSome then 1 else 0) ∧
    (∀ a, (s.step a).2.observer.attachments = s.observer.attachments ∨
      ∃ x, (s.step a).2.observer.attachments = s.observer.attachments ++ [x]) ∧
    ((s.step .captureInto).2.observer.attachments = s.observer.attachments) ∧
    (∀ (i : Nat) (more : List Action), s.observer.attachments[i]? = some Attachment.record →
      (s.run more).observer.attachments[i]? = some Attachment.record) ∧
    (s.observer.record = none ↔ start.EveryCapture (fun c => c.isEmpty) actions) ∧
    (s.observer.record.isSome → ∃ before phase after, start.FirstCapture actions before phase after) ∧
    (∀ before phase after, start.FirstCapture actions before phase after →
      s.observer.attachments = externals before ++ .record :: externals after ∧
      ∀ i, s.observer.attachments[i]? = some Attachment.record ↔ i = (before.filterMap Action.extra?).length) ∧
    (∀ r, s.observer.record = some r →
      (r.isEmpty ↔ start.EveryCapture (fun c => ∀ r ∈ c.ranges.head?, maxBlockSize < r.length) actions)) ∧
    ∃ items last, (s.step .extras).1 = .extras items last ∧
      List.Forall₂ (fun a p => a.item? s.observer.record = some p.2) s.observer.attachments items ∧
      (∀ before p after, items = before ++ p :: after → p.1.sizeHint.2 = (p :: after).length) ∧
      last.sizeHint.2 = 0 := by
  intro start s
  have hplaced : s.RecordPlaced := (recordPlaced_new config readerOf placement source).run actions
  have hnone : start.observer.record = none := rfl
  have hitems := hplaced.isSome_item?
  refine ⟨hplaced, s.attachments_step_eq_or_append, ?_, fun i more hi => ?_, ⟨fun hs => ?_, fun h => ?_⟩, fun hs => ?_,
    fun before phase after h => ?_, fun r hr => ?_, _, _, rfl, Extras.walk_shows hitems, fun before p after hwalk => ?_, ?_⟩
  · rw [attachments_step]
    exact List.append_nil _
  · obtain ⟨hlt, hget⟩ := List.getElem?_eq_some_iff.mp hi
    rw [List.prefix_iff_getElem?.mp (s.attachments_prefix_run more) i hlt, hget]
  · rcases start.everyCapture_or_firstCapture actions with h | ⟨before, phase, after, h⟩
    · exact h
    · have hsome := (h.run hnone).1
      rw [show (start.run actions).observer.record = none from hs] at hsome
      cases hsome
  · exact (attachments_run_of_isEmpty h hnone).1
  · rcases start.everyCapture_or_firstCapture actions with h | h
    · rw [show s.observer.record = none from (attachments_run_of_isEmpty h hnone).1] at hs
      cases hs
    · exact h
  · have hattachments : s.observer.attachments = externals before ++ .record :: externals after := (h.run hnone).2
    rw [hattachments]
    exact ⟨rfl, getElem?_eq_record_iff _ _⟩
  · have hrun := start.isEmpty_record_run actions
    rw [show (start.run actions).observer.record = some r from hr, Option.getD_some] at hrun
    rw [hrun]
    exact and_iff_right rfl
  · exact Extras.sizeHint_walk hitems hwalk
  · exact congrArg List.length (Extras.entries_of_walk hitems)

theorem record_behind_first_extra :
    let s := (Session.new .fullFidelity (fun _ _ => Memory.pattern.reader) AddressSpace.placePool
      AddressSpace.placeChunk).run [.addExtra (.ofBytes recordTag []), .capturePhase .write, .register .read 5 2,
        .capturePhase .read]
    (∀ more, (s.run more).observer.attachments[1]? = some Attachment.record) ∧
      ∃ r, s.observer.record = some r ∧ ¬r.isEmpty := by
  dsimp only
  obtain ⟨-, -, -, hstays, -, -, hplace, hempty, -⟩ := record_entered_once .fullFidelity
    (fun _ _ => Memory.pattern.reader) AddressSpace.placePool AddressSpace.placeChunk
    [.addExtra (.ofBytes recordTag []), .capturePhase .write, .register .read 5 2, .capturePhase .read]
  have hplace := hplace [.addExtra (.ofBytes recordTag []), .capturePhase .write, .register .read 5 2] .read []
    { split := rfl
      found := nofun
      first := everyCapture_cons.mpr ⟨nofun, everyCapture_cons.mpr ⟨fun _ _ => rfl,
        everyCapture_cons.mpr ⟨nofun, everyCapture_nil _ _⟩⟩⟩ }
  refine ⟨fun more => hstays 1 more ((hplace.2 1).mpr rfl), ⟨[⟨5, [5, 6], by decide⟩], []⟩, rfl, fun hr => ?_⟩
  have hlong := (hempty _ rfl).mp hr [.addExtra (.ofBytes recordTag []), .capturePhase .write,
    .register .read 5 2] .read [] rfl
  exact absurd (hlong ⟨5, 7, by decide, by decide⟩ rfl) (by decide)

/-- A capture that stops at its first range leaves an empty record behind. -/
theorem record_empty_after_stopped_capture :
    ¬∀ (actions : List Action) (r : Record),
      ((Session.new .lightweight (fun _ _ => Memory.pattern.reader) AddressSpace.placePool
        AddressSpace.placeChunk).run actions).observer.record = some r → r.isEmpty = false := by
  intro h
  have hempty := h [.register .read 0 (2 ^ 63), .capturePhase .read] .empty rfl
  cases hempty

end Session

end CallCapture
