import CallCapture.Proofs.Session.Gating
import CallCapture.Proofs.Session.RecordEntry

namespace CallCapture

/-- Whether an action is about the call itself: its name, error, extras and scratch memory, and the record as read. -/
def Action.isAside : Action → Bool
  | .setName _ | .setError _ | .metadata | .scratch _ | .addExtra _ | .extras | .record | .encodeExtras _ => true
  | _ => false

def AttachedExtra.external? : AttachedExtra → Option Extra
  | .record _ => none
  | .external extra => some extra

theorem Extras.filterMap_external?_items {record : Option Record} {entries : List Attachment}
    (h : ∀ a ∈ entries, (a.item? record).isSome) :
    (items ⟨entries, record⟩).filterMap AttachedExtra.external? = entries.filterMap Attachment.extra? := by
  induction entries with
  | nil =>
      rw [items_nil]
      rfl
  | cons a rest ih =>
      obtain ⟨item, hitem⟩ := Option.isSome_iff_exists.mp (h a List.mem_cons_self)
      have hexternal : item.external? = a.extra? := by
        cases a with
        | external extra =>
            cases hitem
            rfl
        | record =>
            obtain ⟨r, -, rfl⟩ := Option.map_eq_some_iff.mp hitem
            rfl
      have hrest := ih fun b hb => h b (List.mem_cons_of_mem a hb)
      rw [items_of_item? hitem, List.filterMap_cons, List.filterMap_cons, hrest, hexternal]

namespace Observer

/-- An observer but for what no capture looks at. -/
def core (o : Observer) : Observer :=
  { o with
    commandName := none
    error := .noError
    scratch := .new .standard (fun _ _ _ => none)
    attachments := []
    log := [] }

variable {t : ElementType} (o : Observer)

theorem register_core (phase : Phase) (base size : Nat) :
    (o.core.register phase base size).core = (o.register phase base size).core := by
  simp only [register]
  split <;> rfl

theorem registerRegion_core (phase : Phase) (r : Region) :
    (o.core.registerRegion phase r).core = (o.registerRegion phase r).core := by
  simp only [registerRegion, register]
  split <;> rfl

theorem registerObserved_core (phase : Phase) (r : Region) :
    (o.core.registerObserved phase r).core = (o.registerObserved phase r).core := by
  rw [registerObserved, registerObserved]
  change (if o.observes r.owner then _ else _ : Observer).core = _
  split
  · exact o.registerRegion_core phase r
  · rfl

theorem readString_core (m : Memory) (address : Nat) :
    (o.core.readString m address).map id core = (o.readString m address).map id core := by
  simp only [readString]
  split
  · rfl
  · cases m.distanceToZero address (addressTop + 1 - address) with
    | none => rfl
    | some length => exact congrArg (Prod.mk _) (o.register_core .read address (length + 1))

theorem readElement_core (m : Memory) (v : View t) (index : Nat) :
    (o.core.readElement m v index).map id core = (o.readElement m v index).map id core := by
  rcases Nat.lt_or_ge index v.count with hi | hi
  · rw [readElement_of_lt hi, readElement_of_lt hi]
    refine congrArg (Prod.mk _) ?_
    change (if o.observes v.owner then _ else _ : Observer).core = _
    split
    · exact o.register_core .read _ t.size
    · rfl
  · rw [readElement_of_le hi, readElement_of_le hi]
    rfl

theorem writeElement_core (m : Memory) (v : View t) (index : Nat) (value : t.Value) :
    (o.core.writeElement m v index value).map (Prod.map core id) =
      (o.writeElement m v index value).map (Prod.map core id) := by
  rcases Nat.lt_or_ge index v.count with hi | hi
  · rw [writeElement_of_lt hi, writeElement_of_lt hi]
    refine congrArg Except.ok ?_
    change Prod.map core id (if o.observes v.owner then _ else _) = _
    split
    · exact congrArg (Prod.mk · m) (o.register_core .write _ t.size)
    · rfl
  · rw [writeElement_of_le hi, writeElement_of_le hi]

theorem attachRecord_core : o.core.attachRecord.core = o.attachRecord.core := by
  cases h : o.record with
  | none => simp only [attachRecord, core, h, note]
  | some r => simp only [attachRecord, core, h]

theorem finishCapture_core (target : Option Phase) :
    (o.core.finishCapture target).map id core = (o.finishCapture target).map id core := by
  simp only [finishCapture, core]
  cases o.pending.captureFault? <;> rfl

theorem finishCapture_congr {o p : Observer} (h : o.core = p.core) (target : Option Phase) :
    (o.finishCapture target).map id core = (p.finishCapture target).map id core := by
  rw [← finishCapture_core, h, finishCapture_core]

theorem capturePhase_core (reader : Reader) (phase : Phase) :
    (o.core.capturePhase reader phase).map id core = (o.capturePhase reader phase).map id core := by
  by_cases h : o.pending.isEmpty
  · rw [capturePhase_of_isEmpty o reader phase h, capturePhase_of_isEmpty o.core reader phase h]
    rfl
  · rw [capturePhase_of_not_isEmpty o reader phase h, capturePhase_of_not_isEmpty o.core reader phase h]
    refine finishCapture_congr ?_ (some phase)
    have hattach := o.attachRecord_core
    exact congrArg
      (fun p : Observer => { p with
        record := p.record.map (Record.append · phase (p.pending.capture reader)) }) hattach

theorem captureInto_core (reader : Reader) (out : List Observation) :
    (o.core.captureInto reader out).map id (Prod.map id core) = (o.captureInto reader out).map id (Prod.map id core) := by
  by_cases h : o.pending.isEmpty
  · rw [captureInto_of_isEmpty o reader out h, captureInto_of_isEmpty o.core reader out h]
    rfl
  · rw [captureInto_of_not_isEmpty o reader out h, captureInto_of_not_isEmpty o.core reader out h]
    exact congrArg (fun r => (r.1, out ++ o.pending.capture reader, r.2)) (o.finishCapture_core none)

theorem exists_of_map_core {α : Type} {r q : α × Observer} (h : q.map id core = r.map id core) :
    ∃ x o p, r = (x, o) ∧ q = (x, p) ∧ p.core = o.core := by
  obtain ⟨x, o⟩ := r
  obtain ⟨y, p⟩ := q
  obtain ⟨rfl, hcore⟩ := Prod.mk.inj h
  exact ⟨y, o, p, rfl, rfl, hcore⟩

theorem exists_of_map_map_core {α β : Type} {r q : α × β × Observer}
    (h : q.map id (Prod.map id core) = r.map id (Prod.map id core)) :
    ∃ x y o p, r = (x, y, o) ∧ q = (x, y, p) ∧ p.core = o.core := by
  obtain ⟨x, r⟩ := r
  obtain ⟨_, q⟩ := q
  obtain ⟨rfl, hrest⟩ := Prod.mk.inj h
  obtain ⟨y, o, p, rfl, rfl, hcore⟩ := exists_of_map_core hrest
  exact ⟨_, y, o, p, rfl, rfl, hcore⟩

theorem eq_error_or_exists_of_map_core {ε β : Type} {r q : Except ε (Observer × β)}
    (h : q.map (Prod.map core id) = r.map (Prod.map core id)) :
    (∃ e, r = .error e ∧ q = .error e) ∨ ∃ o p x, r = .ok (o, x) ∧ q = .ok (p, x) ∧ p.core = o.core := by
  cases r with
  | error e =>
      cases q with
      | error f =>
          cases h
          exact .inl ⟨e, rfl, rfl⟩
      | ok q => cases h
  | ok r =>
      cases q with
      | error f => cases h
      | ok q =>
          obtain ⟨o, x⟩ := r
          obtain ⟨p, y⟩ := q
          obtain ⟨hcore, rfl⟩ := Prod.mk.inj (Except.ok.inj h)
          exact .inr ⟨o, p, _, rfl, rfl, hcore⟩

end Observer

namespace Session

def core (s : Session) : Session := { s with observer := s.observer.core }

def coreOf (r : Answer × Session) : Answer × Session := r.map id core

section step

variable {s : Session} {name other : String}

theorem process_core (s : Session) : s.core.process = s.process := rfl

theorem pools_core (s : Session) : s.core.pools = s.pools := rfl

theorem reader_core (s : Session) : s.core.reader = s.reader := rfl

theorem captured_core (s : Session) : s.core.captured = s.captured := rfl

theorem observer_core (s : Session) : s.core.observer = s.observer.core := rfl

theorem core_congr {o p : Observer} (h : o.core = p.core) (s : Session) :
    ({ s with observer := o } : Session).core = ({ s with observer := p } : Session).core :=
  congrArg (fun o => { s with observer := o }) h

theorem nameView_congr {t : ElementType} {u w : Session} (h : u.core = w.core) (v : View t) :
    coreOf (u.nameView name v) = coreOf (w.nameView name v) :=
  congrArg (fun u => (Answer.view ⟨t, v⟩, { u with views := u.views.put name ⟨t, v⟩ })) h

theorem withView_core {act act' : TypedView → Answer × Session}
    (h : ∀ v, coreOf (act' v) = coreOf (act v)) :
    coreOf (s.core.withView name act') = coreOf (s.withView name act) := by
  cases hv : s.views.get? name with
  | none =>
      rw [withView_of_none hv, withView_of_none (s := s.core) hv]
      rfl
  | some v => rw [withView_of_some hv, withView_of_some (s := s.core) hv, h v]

theorem withViews_core {act act' : (t : ElementType) → View t → View t → Answer × Session}
    (h : ∀ t v w, coreOf (act' t v w) = coreOf (act t v w)) :
    coreOf (s.core.withViews name other act') = coreOf (s.withViews name other act) := by
  refine withView_core fun ⟨t, v⟩ => withView_core fun w => ?_
  dsimp only
  cases w.at? t with
  | none => rfl
  | some w => exact h t v w

theorem copy_core {t : ElementType} (dst src : View t) :
    coreOf (s.core.copy dst src name) = coreOf (s.copy dst src name) := by
  rw [copy_eq, copy_eq]
  exact nameView_congr (core_congr (s.observer.registerRegion_core .read src.region) { s with process := _ }) dst

theorem cloneView_core {t : ElementType} (src : View t) :
    coreOf (s.core.cloneView src name) = coreOf (s.cloneView src name) := by
  cases hmade : s.process.make t src.count with
  | mk result q =>
      have hmade' : s.core.process.make t src.count = (result, q) := hmade
      cases result with
      | error f =>
          rw [cloneView_of_error hmade, cloneView_of_error hmade']
          rfl
      | ok dst =>
          rw [cloneView_of_ok hmade, cloneView_of_ok hmade']
          have hregister := (s.observer.note (Event.ofPools s.process.pools q.pools)).registerRegion_core .read src.region
          have hregister' := (s.core.observer.note (Event.ofPools s.process.pools q.pools)).registerRegion_core .read
            src.region
          exact nameView_congr (core_congr (hregister'.symm.trans hregister) { s with process := _ }) dst

theorem registerForeign_core (phase : Phase) (base length : Nat) (tool : Bool) :
    coreOf (s.core.registerForeign phase base length tool) = coreOf (s.registerForeign phase base length tool) := by
  cases tool with
  | false =>
      exact congrArg (Prod.mk _)
        (core_congr (s.observer.registerObserved_core phase ⟨base, length, .application, none⟩) s)
  | true =>
      exact congrArg (Prod.mk _)
        (core_congr (s.observer.registerObserved_core phase ⟨base, length, .tool s.process.takeId.1, none⟩)
          { s with process := s.process.takeId.2 })

theorem readElement_core (view : String) (index : Nat) :
    coreOf (s.core.step (.readElement view index)) = coreOf (s.step (.readElement view index)) := by
  refine withView_core fun v => ?_
  obtain ⟨result, o, p, hread, hread', hcore⟩ :=
    Observer.exists_of_map_core (s.observer.readElement_core s.process.memory v.view index)
  rw [process_core, observer_core, hread, hread']
  cases result <;> exact congrArg (Prod.mk _) (core_congr hcore s)

theorem writeElement_core (view : String) (index : Nat) (value : Literal) :
    coreOf (s.core.step (.writeElement view index value)) = coreOf (s.step (.writeElement view index value)) := by
  refine withView_core fun v => ?_
  rw [process_core, observer_core]
  rcases Observer.eq_error_or_exists_of_map_core
      (s.observer.writeElement_core s.process.memory v.view index (v.elem.ofLiteral value)) with
    ⟨f, hwrite, hwrite'⟩ | ⟨o, p, m, hwrite, hwrite', hcore⟩
  · rw [hwrite, hwrite']
    rfl
  · rw [hwrite, hwrite']
    exact congrArg (Prod.mk _) (core_congr hcore (s.withMemory m))

theorem readString_core (address : Nat) :
    coreOf (s.core.step (.readString address)) = coreOf (s.step (.readString address)) := by
  obtain ⟨result, o, p, hread, hread', hcore⟩ :=
    Observer.exists_of_map_core (s.observer.readString_core s.process.memory address)
  simp only [step, process_core, observer_core, hread, hread']
  cases result <;> exact congrArg (Prod.mk _) (core_congr hcore s)

theorem capturePhase_core (phase : Phase) :
    coreOf (s.core.step (.capturePhase phase)) = coreOf (s.step (.capturePhase phase)) := by
  obtain ⟨result, o, p, hcapture, hcapture', hcore⟩ :=
    Observer.exists_of_map_core (s.observer.capturePhase_core s.reader phase)
  simp only [step, reader_core, observer_core, hcapture, hcapture']
  cases result with
  | error f => exact congrArg (Prod.mk _) (core_congr hcore s)
  | ok => exact congrArg (fun o : Observer => (Answer.record o.record, { s with observer := o })) hcore

theorem captureInto_core : coreOf (s.core.step .captureInto) = coreOf (s.step .captureInto) := by
  obtain ⟨result, out, o, p, hcapture, hcapture', hcore⟩ :=
    Observer.exists_of_map_map_core (s.observer.captureInto_core s.reader s.captured)
  simp only [step, reader_core, captured_core, observer_core, hcapture, hcapture']
  cases result <;> exact congrArg (Prod.mk _) (core_congr hcore { s with captured := out })

theorem step_core (s : Session) {a : Action} (h : a.isAside = false) : coreOf (s.core.step a) = coreOf (s.step a) := by
  cases a with
  | setName | setError | metadata | scratch | addExtra | extras | record | encodeExtras => cases h
  | dropView | dropPool | poke | peek | sparsePoke | sparsePeek | sparseFill => rfl
  | borrow name t tool base count => cases tool <;> rfl
  | make name t count =>
      simp only [step, make, process_core]
      rcases s.process.make t count with ⟨_ | _, q⟩ <;> rfl
  | overPool name t pool =>
      simp only [step, overPool, pools_core]
      cases s.pools.get? pool with
      | none => rfl
      | some pool =>
          dsimp only
          cases View.ofPool t pool <;> rfl
  | createPool name size =>
      simp only [step, createPool, process_core]
      rcases s.process.createPool size with ⟨_ | _, q⟩ <;> rfl
  | share view name => exact withView_core fun v => rfl
  | describe view => exact withView_core fun v => rfl
  | elements view => exact withView_core fun v => rfl
  | address view index =>
      refine withView_core fun v => ?_
      cases v.view.elementAddress index <;> rfl
  | get view index =>
      refine withView_core fun v => ?_
      rw [process_core]
      cases v.view.get s.process.memory index <;> rfl
  | set view index value =>
      refine withView_core fun v => ?_
      rw [process_core]
      cases v.view.set s.process.memory index (v.elem.ofLiteral value) <;> rfl
  | copyTo view dst start count dstStart =>
      simp only [step, process_core]
      refine withViews_core fun t v w => ?_
      cases v.copyTo w s.process.memory start count dstStart <;> rfl
  | register phase base size => exact congrArg (Prod.mk _) (core_congr (s.observer.register_core phase base size) s)
  | registerView phase view =>
      refine withView_core fun v => ?_
      exact congrArg (Prod.mk _) (core_congr (s.observer.registerObserved_core phase v.view.region) s)
  | registerForeign phase base length tool => exact registerForeign_core phase base length tool
  | readElement view index => exact readElement_core view index
  | writeElement view index value => exact writeElement_core view index value
  | copy dst src name => exact withViews_core fun t w v => copy_core w v
  | cloneView src name => exact withView_core fun v => cloneView_core v.view
  | readString address => exact readString_core address
  | readStringView view =>
      refine withView_core fun v => ?_
      cases v.at? characterType with
      | none => rfl
      | some v => exact congrArg (Prod.mk _) (core_congr (s.observer.registerRegion_core .read v.region) s)
  | capturePhase phase => exact capturePhase_core phase
  | captureInto => exact captureInto_core

end step

section run

variable {s t : Session} {keep : Action → Bool}

theorem run_filter {R : Session → Session → Prop}
    (hkept : ∀ s t a, keep a = true → R s t → R (s.step a).2 (t.step a).2)
    (hleft : ∀ s t a, keep a = false → R s t → R (s.step a).2 t) (h : R s t) (actions : List Action) :
    R (s.run actions) (t.run (actions.filter keep)) := by
  induction actions generalizing s t with
  | nil => exact h
  | cons a rest ih =>
      cases ha : keep a with
      | true =>
          rw [List.filter_cons_of_pos ha]
          exact ih (hkept s t a ha h)
      | false =>
          rw [List.filter_cons_of_neg (by simp [ha])]
          exact ih (hleft s t a ha h)

theorem core_step_of_isAside (s : Session) {a : Action} (h : a.isAside) : (s.step a).2.core = s.core := by
  cases a with
  | setName | setError | metadata | scratch | addExtra | extras | record | encodeExtras => rfl
  | _ => cases h

theorem step_congr (h : s.core = t.core) {a : Action} (ha : a.isAside = false) :
    coreOf (s.step a) = coreOf (t.step a) := by
  rw [← step_core s ha, h, step_core t ha]

theorem core_step_congr (h : s.core = t.core) (a : Action) : (s.step a).2.core = (t.step a).2.core := by
  cases ha : a.isAside with
  | true => rw [core_step_of_isAside s ha, core_step_of_isAside t ha, h]
  | false => exact congrArg Prod.snd (step_congr h ha)

theorem core_run_filter (hkeep : ∀ a, a.isAside = false → keep a) (s : Session) (actions : List Action) :
    (s.run actions).core = (s.run (actions.filter keep)).core := by
  refine run_filter (R := fun s t => s.core = t.core) (fun s t a _ h => core_step_congr h a) (fun s t a ha h => ?_)
    rfl actions
  cases haside : a.isAside with
  | true => rw [core_step_of_isAside s haside, h]
  | false =>
      rw [hkeep a haside] at ha
      cases ha

theorem bare_step_of_not_isAside (s : Session) {a : Action} (h : a.isAside = false) :
    (s.step a).2.observer.bare = s.observer.bare := by
  refine s.bare_step ?_
  cases a with
  | setName | setError | metadata | scratch | addExtra | extras | record | encodeExtras => cases h
  | capturePhase | captureInto => exact .inr rfl
  | _ => exact .inl rfl

theorem bare_step_congr (h : s.observer.bare = t.observer.bare) (a : Action) :
    (s.step a).2.observer.bare = (t.step a).2.observer.bare := by
  cases ha : a.isAside with
  | false => rw [bare_step_of_not_isAside s ha, bare_step_of_not_isAside t ha, h]
  | true =>
      cases a with
      | setName name => exact congrArg (fun o : Observer => { o with commandName := some name }) h
      | setError error => exact congrArg (fun o : Observer => { o with error }) h
      | scratch action => exact congrArg (fun o : Observer => { o with scratch := (o.scratch.step action).2 }) h
      | metadata | addExtra | extras | record | encodeExtras => exact h
      | _ => cases ha

theorem bare_run_filter (hkeep : ∀ a, a.isAside → keep a) (s : Session) (actions : List Action) :
    (s.run actions).observer.bare = (s.run (actions.filter keep)).observer.bare := by
  refine run_filter (R := fun s t => s.observer.bare = t.observer.bare) (fun s t a _ h => bare_step_congr h a)
    (fun s t a ha h => ?_) rfl actions
  cases haside : a.isAside with
  | false => rw [bare_step_of_not_isAside s haside, h]
  | true =>
      rw [hkeep a haside] at ha
      cases ha

theorem filterMap_extra?_filter (hkeep : ∀ a, a.isAside → keep a) (actions : List Action) :
    (actions.filter keep).filterMap Action.extra? = actions.filterMap Action.extra? := by
  rw [List.filterMap_filter]
  refine List.filterMap_congr fun a _ => ?_
  cases a with
  | addExtra extra => rw [if_pos (hkeep _ rfl)]
  | _ => exact ite_self _

end run

def addedExtras (s : Session) : List Extra := s.observer.extras.items.filterMap AttachedExtra.external?

theorem RecordPlaced.addedExtras_run {s : Session} (h : s.RecordPlaced) (hnil : s.observer.attachments = [])
    (actions : List Action) : (s.run actions).addedExtras = actions.filterMap Action.extra? := by
  rw [addedExtras, Observer.extras, Extras.filterMap_external?_items (h.run actions).isSome_item?,
    filterMap_extra?_run, hnil]
  rfl

structure CapturesAlike (s t : Session) : Prop where
  pending : s.observer.pending = t.observer.pending
  retained : s.observer.retained = t.observer.retained
  record : s.observer.record = t.observer.record
  captured : s.captured = t.captured
  process : s.process = t.process
  sparse : s.sparse = t.sparse
  views : s.views = t.views
  pools : s.pools = t.pools

theorem CapturesAlike.of_core {s t : Session} (h : s.core = t.core) : s.CapturesAlike t := by
  simp only [core, Observer.core, mk.injEq, Observer.mk.injEq, true_and, and_true] at h
  obtain ⟨⟨-, hrecord, hpending, hretained⟩, hprocess, hsparse, -, hviews, hpools, hcaptured⟩ := h
  exact ⟨hpending, hretained, hrecord, hcaptured, hprocess, hsparse, hviews, hpools⟩

structure MetadataAlike (s t : Session) : Prop where
  commandName : s.observer.commandName = t.observer.commandName
  error : s.observer.error = t.observer.error
  scratch : s.observer.scratch = t.observer.scratch
  extras : s.addedExtras = t.addedExtras
  frames : s.addedExtras.map (fun x => x.frame.bytes?) = t.addedExtras.map fun x => x.frame.bytes?

/-- Whichever of the actions on name, error, scratch memory and extras and of the reads of the record are left out of a
session, all other actions are answered as before, and after each of them pending ranges, kept pools, record and all
memory are as before. Whichever of the other actions are left out, the name, the error, the scratch memory and the
extras that were added are as before, and so is what is told of name and scratch memory. -/
theorem captures_and_metadata_apart (config : ObserverConfig) (readerOf : Memory → Memory → Reader)
    (placement : PoolPlacement) (source : ChunkSource) (keep : Action → Bool) (actions : List Action) :
    let start := Session.new config readerOf placement source
    let s := start.run actions
    let t := start.run (actions.filter keep)
    ((∀ a, a.isAside = false → keep a) → s.CapturesAlike t ∧ ∀ a, a.isAside = false →
      (s.step a).1 = (t.step a).1 ∧ (s.step a).2.CapturesAlike (t.step a).2) ∧
    ((∀ a, a.isAside → keep a) → s.MetadataAlike t ∧
      (s.step .metadata).1 = (t.step .metadata).1 ∧ ∀ a, (s.step (.scratch a)).1 = (t.step (.scratch a)).1) := by
  intro start s t
  refine ⟨fun hkeep => ?_, fun hkeep => ?_⟩
  · have hcore : s.core = t.core := core_run_filter hkeep start actions
    refine ⟨.of_core hcore, fun a ha => ?_⟩
    have hstep := step_congr hcore ha
    exact ⟨(Prod.mk.inj hstep).1, .of_core (Prod.mk.inj hstep).2⟩
  · have hbare : s.observer.bare = t.observer.bare := bare_run_filter hkeep start actions
    obtain ⟨hpolicy, hname, herror, hscratch⟩ := Observer.bare_eq_bare.mp hbare
    have hplaced : start.RecordPlaced := recordPlaced_new config readerOf placement source
    have hextras : s.addedExtras = t.addedExtras := by
      rw [hplaced.addedExtras_run rfl, hplaced.addedExtras_run rfl, filterMap_extra?_filter hkeep]
    refine ⟨⟨hname, herror, hscratch, hextras, congrArg _ hextras⟩, ?_, fun a => ?_⟩
    · rw [step, step, hpolicy, hname, herror]
    · rw [step, step, scratch, scratch, hscratch]

theorem failing_extra_beside_capture :
    let start := Session.new .fullFidelity (fun _ _ => Memory.pattern.reader) AddressSpace.placePool
      AddressSpace.placeChunk
    let actions : List Action := [.register .read 5 2, .addExtra (.failing 9 [1] (.malformed (.trailing 1))),
      .scratch (.reserve ⟨8, 3, by decide⟩), .encodeExtras (some 3), .capturePhase .read]
    (start.run actions).observer.record =
        (start.run [.register .read 5 2, .capturePhase .read]).observer.record ∧
      (start.run actions).observer.scratch =
        (start.run [.addExtra (.failing 9 [1] (.malformed (.trailing 1))), .scratch (.reserve ⟨8, 3, by decide⟩),
          .encodeExtras (some 3)]).observer.scratch := by
  dsimp only
  obtain ⟨hcaptures, -⟩ := captures_and_metadata_apart .fullFidelity (fun _ _ => Memory.pattern.reader)
    AddressSpace.placePool AddressSpace.placeChunk (fun a => !a.isAside)
    [.register .read 5 2, .addExtra (.failing 9 [1] (.malformed (.trailing 1))),
      .scratch (.reserve ⟨8, 3, by decide⟩), .encodeExtras (some 3), .capturePhase .read]
  obtain ⟨-, hmetadata⟩ := captures_and_metadata_apart .fullFidelity (fun _ _ => Memory.pattern.reader)
    AddressSpace.placePool AddressSpace.placeChunk Action.isAside
    [.register .read 5 2, .addExtra (.failing 9 [1] (.malformed (.trailing 1))),
      .scratch (.reserve ⟨8, 3, by decide⟩), .encodeExtras (some 3), .capturePhase .read]
  exact ⟨(hcaptures fun a ha => by simp [ha]).1.record, (hmetadata fun a ha => ha).1.scratch⟩

end Session

end CallCapture
