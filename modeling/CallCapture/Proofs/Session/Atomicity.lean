import CallCapture.Proofs.Scratch.Refusals
import CallCapture.Proofs.Session.Gating

namespace CallCapture

def Answer.isFailure : Answer → Bool
  | .fault _ | .stringError _ | .encoded _ (some _) => true
  | .scratch answer _ => answer.isFailure
  | _ => false

def View.copyFault? {t : ElementType} (v dst : View t) (start count dstStart : Nat) : Option Fault :=
  if v.count < start + count then some (.copyRange .source start count v.count)
  else if dst.count < dstStart + count then some (.copyRange .destination dstStart count dst.count)
  else none

namespace Session

structure Accounted (s : Session) : Prop where
  grounded : s.Grounded
  retained : ∀ p ∈ s.observer.retained, p ∈ s.process.pools.made
  serial : ∀ p ∈ s.process.pools.made, p.serial < s.process.pools.made.length

section accounted

variable {s : Session}

theorem accounted_new (config : ObserverConfig) (readerOf : Memory → Memory → Reader) (placement : PoolPlacement)
    (source : ChunkSource) : (Session.new config readerOf placement source).Accounted :=
  ⟨grounded_new config readerOf placement source, nofun, nofun⟩

theorem mem_retained_step {a : Action} {p : Pool} (hp : p ∈ (s.step a).2.observer.retained) :
    p ∈ s.observer.retained ∨ p ∈ (s.registration a).pools := by
  cases honly : a.onlyRegisters with
  | true =>
      rw [(s.step_enters honly).observer.retained] at hp
      exact List.mem_append.mp hp
  | false =>
      cases a with
      | setName | setError | addExtra | scratch => exact .inl hp
      | capturePhase | captureInto =>
          rw [retained_step_of_target rfl] at hp
          split at hp
          · exact .inl hp
          · cases hp
      | _ => cases honly

theorem Accounted.step (h : s.Accounted) (a : Action) : (s.step a).2.Accounted := by
  have hgrounds := s.step_grounds a
  refine ⟨hgrounds.grounded h.grounded, fun p hp => ?_, fun p hp => ?_⟩
  · apply hgrounds.made.kept.subset
    rcases mem_retained_step hp with hold | hnew
    · exact h.retained p hold
    · obtain ⟨r, hr, hpool⟩ := List.mem_filterMap.mp hnew
      exact (h.grounded.backedBy_registration hr p (Region.pool?_eq_some.mp hpool).2).1
  · have hlength := hgrounds.made.kept.length_le
    obtain ⟨fresh, hmore, hfresh⟩ := hgrounds.made
    rw [hmore] at hp
    rcases List.mem_append.mp hp with hold | hnew
    · exact Nat.lt_of_lt_of_le (h.serial p hold) hlength
    · exact (hfresh p hnew).2

theorem Accounted.run (h : s.Accounted) (actions : List Action) : (s.run actions).Accounted := by
  induction actions generalizing s with
  | nil => exact h
  | cons a rest ih => exact ih (h.step a)

theorem Accounted.made_of_holds (h : s.Accounted) {p : Pool} (hp : s.holds p) : p ∈ s.process.pools.made := by
  rcases holds_iff.mp hp with ⟨v, hv, hbacking⟩ | hname | hkept
  · exact (h.grounded.views v hv p hbacking).1
  · exact h.grounded.pools p hname
  · exact h.retained p hkept

theorem Accounted.alive_eq {t : Session} (h : s.Accounted)
    (made : Pools.Grows s.process.pools.made t.process.pools.made) (views : t.views = s.views)
    (pools : t.pools = s.pools) (retained : t.observer.retained = s.observer.retained) : t.alive = s.alive := by
  have hholds : t.holds = s.holds := by
    funext p
    rw [holds, holds, views, pools, retained]
  obtain ⟨fresh, hmore, hfresh⟩ := made
  have hnone : fresh.filter s.holds = [] := by
    rw [List.filter_eq_nil_iff]
    intro p hp hheld
    have hlow := (hfresh p hp).1
    have hhigh := h.serial p (h.made_of_holds hheld)
    omega
  rw [alive, hmore, hholds, List.filter_append, hnone, List.append_nil]
  rfl

end accounted

/-- From `s` to `t` all is the same that no capture works on. Pools may have been made, but none is held. -/
structure Kept (s t : Session) : Prop where
  retained : t.observer.retained = s.observer.retained
  commandName : t.observer.commandName = s.observer.commandName
  error : t.observer.error = s.observer.error
  observesApplication : t.observer.observesApplication = s.observer.observesApplication
  scratch : s.observer.scratch.Untouched t.observer.scratch
  views : t.views = s.views
  pools : t.pools = s.pools
  made : Pools.Grows s.process.pools.made t.process.pools.made
  alive : t.alive = s.alive
  memory : t.process.memory = s.process.memory
  sparse : t.sparse = s.sparse

structure Untouched (s t : Session) : Prop extends Kept s t where
  pending : t.observer.pending = s.observer.pending
  record : t.observer.record = s.observer.record
  attachments : t.observer.attachments = s.observer.attachments
  captured : t.captured = s.captured

theorem Untouched.refl (s : Session) : s.Untouched s where
  retained := rfl
  commandName := rfl
  error := rfl
  observesApplication := rfl
  scratch := .refl _
  views := rfl
  pools := rfl
  made := .refl _
  alive := rfl
  memory := rfl
  sparse := rfl
  pending := rfl
  record := rfl
  attachments := rfl
  captured := rfl

theorem untouched_note (s : Session) (events : List Event) :
    s.Untouched { s with observer := s.observer.note events } := { Untouched.refl s with }

theorem Accounted.untouched_of_process {s : Session} (h : s.Accounted) (events : List Event) {p : Process}
    (memory : p.memory = s.process.memory) (made : Pools.Grows s.process.pools.made p.pools.made) :
    s.Untouched { s with observer := s.observer.note events, process := p } :=
  { Untouched.refl s with made, memory, alive := h.alive_eq made rfl rfl rfl }

theorem untouched_of_scratch (s : Session) {scratch : Scratch} (h : s.observer.scratch.Untouched scratch)
    (events : List Event) :
    s.Untouched { s with observer := { s.observer with scratch }.note events } := { Untouched.refl s with scratch := h }

/-- The answer of an action that is refused: an index or a range out of bounds, a size or an alignment that no pool has,
or no string where one is read. -/
def refusal? (s : Session) : Action → Option Answer
  | .make _ t count => (Process.makeFault? t count).map .fault
  | .overPool _ t pool =>
    (s.pools.get? pool).bind fun _ =>
      if poolAlign < t.align then some (.fault (.overAligned t.align poolAlign)) else none
  | .createPool _ size =>
    if maxBlockSize < size + (poolAlign - 1) then some (.fault (.poolOverflow size)) else none
  | .address view index | .get view index | .set view index _ | .readElement view index | .writeElement view index _ =>
    (s.views.get? view).bind fun v =>
      if v.view.count ≤ index then some (.fault (.elementIndex index v.view.count)) else none
  | .copyTo view dst start count dstStart =>
    (s.views.get? view).bind fun v => (s.views.get? dst).bind fun dst =>
      (dst.at? v.elem).bind fun dst => (v.view.copyFault? dst start count dstStart).map .fault
  | .cloneView src _ => (s.views.get? src).bind fun v => (Process.makeFault? v.elem v.view.count).map .fault
  | .readString address =>
    if address = 0 then some (.stringError .nullPointer)
    else if s.process.memory.distanceToZero address (addressTop + 1 - address) = none then
      some (.stringError (.unterminated address))
    else none
  | _ => none

/-- The action ends in just this failure, if in any, and a failure leaves the session as it was. -/
structure Ends (s : Session) (refusal? : Option Answer) (r : Answer × Session) : Prop where
  answer : ∀ x, refusal? = some x ↔ r.1 = x ∧ x.isFailure
  untouched : r.1.isFailure → s.Untouched r.2

section ends

variable {s t : Session} {answer : Answer} {r : Answer × Session}

theorem ends_of_success (h : r.1.isFailure = false) : s.Ends none r where
  answer := by
    refine fun x => ⟨nofun, ?_⟩
    rintro ⟨rfl, hfailure⟩
    rw [h] at hfailure
    cases hfailure
  untouched hfailure := by
    rw [h] at hfailure
    cases hfailure

theorem ends_of_failure (h : answer.isFailure) (untouched : s.Untouched t) : s.Ends (some answer) (answer, t) where
  answer := by
    intro x
    constructor
    · intro hx
      cases hx
      exact ⟨rfl, h⟩
    · rintro ⟨rfl, -⟩
      rfl
  untouched _ := untouched

theorem ends_withView {name : String} {act : TypedView → Answer × Session} {refusal? : TypedView → Option Answer}
    (h : ∀ v, s.Ends (refusal? v) (act v)) : s.Ends ((s.views.get? name).bind refusal?) (s.withView name act) := by
  cases hv : s.views.get? name with
  | none =>
      rw [withView, hv]
      exact ends_of_success rfl
  | some v =>
      rw [withView_of_some hv]
      exact h v

theorem ends_withView_of_success {name : String} {act : TypedView → Answer × Session}
    (h : ∀ v, (act v).1.isFailure = false) : s.Ends none (s.withView name act) :=
  withView_cases (P := fun r => s.Ends none r) (ends_of_success rfl) fun v _ => ends_of_success (h v)

theorem ends_element {view : String} {index : Nat} {act : TypedView → Answer × Session}
    (inside : ∀ v, index < v.view.count → (act v).1.isFailure = false)
    (outside : ∀ v, v.view.count ≤ index → act v = (.fault (.elementIndex index v.view.count), s)) :
    s.Ends ((s.views.get? view).bind fun v =>
      if v.view.count ≤ index then some (.fault (.elementIndex index v.view.count)) else none)
      (s.withView view act) := by
  refine ends_withView fun v => ?_
  rcases Nat.lt_or_ge index v.view.count with hi | hi
  · rw [if_neg (Nat.not_le.mpr hi)]
    exact ends_of_success (inside v hi)
  · rw [if_pos hi, outside v hi]
    exact ends_of_failure rfl (.refl s)

theorem ends_copy (s : Session) (dst src name : String) :
    s.Ends none (s.withViews dst src fun _ dst src => s.copy dst src name) := by
  refine withViews_cases (P := fun r => s.Ends none r) (ends_of_success rfl) fun t w v _ _ => ?_
  rw [copy_eq]
  exact ends_of_success rfl

theorem ends_make (h : s.Accounted) (name : String) (t : ElementType) (count : Nat) :
    s.Ends ((Process.makeFault? t count).map .fault) (s.make name t count) := by
  have hmakes := s.process.makes_make t count
  rw [make]
  cases hmade : s.process.make t count with
  | mk result q =>
      rw [hmade] at hmakes
      have hgrows := hmakes.grows
      cases hmakes with
      | refused fault | given_up fault =>
          rw [fault]
          exact ends_of_failure rfl (h.untouched_of_process _ rfl hgrows)
      | viewed fault =>
          rw [fault]
          exact ends_of_success rfl

theorem ends_cloneView (h : s.Accounted) {t : ElementType} (src : View t) (name : String) :
    s.Ends ((Process.makeFault? t src.count).map .fault) (s.cloneView src name) := by
  have hmakes := s.process.makes_make t src.count
  cases hmade : s.process.make t src.count with
  | mk result q =>
      rw [hmade] at hmakes
      have hgrows := hmakes.grows
      cases hmakes with
      | refused fault | given_up fault =>
          rw [cloneView_of_error hmade, fault]
          exact ends_of_failure rfl (h.untouched_of_process _ rfl hgrows)
      | viewed fault =>
          rw [cloneView_of_ok hmade, fault]
          exact ends_of_success rfl

theorem ends_overPool (s : Session) (name : String) (t : ElementType) (pool : String) :
    s.Ends (s.refusal? (.overPool name t pool)) (s.overPool name t pool) := by
  rw [refusal?, overPool]
  cases s.pools.get? pool with
  | none => exact ends_of_success rfl
  | some pool =>
      dsimp only [Option.bind_some]
      rw [View.ofPool, View.overPool]
      split
      · exact ends_of_failure rfl (.refl s)
      · exact ends_of_success rfl

theorem ends_createPool (h : s.Accounted) (name : String) (size : Nat) :
    s.Ends (s.refusal? (.createPool name size)) (s.createPool name size) := by
  rw [refusal?, createPool]
  rcases Nat.lt_or_ge maxBlockSize (size + (poolAlign - 1)) with hlarge | hsmall
  · rw [if_pos hlarge, s.process.createPool_of_lt hlarge]
    exact ends_of_failure rfl (h.untouched_of_process _ rfl (.refl _))
  · obtain ⟨pool, pools, hcreate, -, -⟩ := s.process.createPool_of_le hsmall
    rw [if_neg (Nat.not_lt.mpr hsmall), hcreate]
    exact ends_of_success rfl

theorem ends_copyTo (s : Session) (view dst : String) (start count dstStart : Nat) :
    s.Ends (s.refusal? (.copyTo view dst start count dstStart)) (s.step (.copyTo view dst start count dstStart)) := by
  refine ends_withView fun v => ends_withView fun w => ?_
  cases w.at? v.elem with
  | none => exact ends_of_success rfl
  | some w =>
      dsimp only [Option.bind_some]
      rw [View.copyTo, View.copyFault?]
      split
      · exact ends_of_failure rfl (.refl s)
      · split
        · exact ends_of_failure rfl (.refl s)
        · exact ends_of_success rfl

theorem ends_readString (s : Session) (address : Nat) :
    s.Ends (s.refusal? (.readString address)) (s.step (.readString address)) := by
  rw [refusal?, step, Observer.readString]
  by_cases hnull : address = 0
  · rw [if_pos hnull, if_pos hnull]
    exact ends_of_failure rfl (s.untouched_note _)
  · rw [if_neg hnull, if_neg hnull]
    cases s.process.memory.distanceToZero address (addressTop + 1 - address) with
    | none => exact ends_of_failure rfl (.refl s)
    | some length => exact ends_of_success rfl

theorem step_ends (h : s.Accounted) {a : Action} (ha : a.target? = none) (harena : ∀ request, a ≠ .scratch request)
    (hencode : ∀ limit, a ≠ .encodeExtras limit) : s.Ends (s.refusal? a) (s.step a) := by
  cases a with
  | make name t count => exact ends_make h name t count
  | overPool name t pool => exact s.ends_overPool name t pool
  | createPool name size => exact ends_createPool h name size
  | copyTo view dst start count dstStart => exact s.ends_copyTo view dst start count dstStart
  | cloneView src name => exact ends_withView fun v => ends_cloneView h v.view name
  | readString address => exact s.ends_readString address
  | borrow name t tool base count => cases tool <;> exact ends_of_success rfl
  | registerForeign phase base length tool => cases tool <;> exact ends_of_success rfl
  | share | describe | elements | registerView => exact ends_withView_of_success fun v => rfl
  | copy dst src name => exact s.ends_copy dst src name
  | readStringView view =>
      refine ends_withView_of_success fun v => ?_
      cases v.at? characterType <;> rfl
  | address view index =>
      refine ends_element (fun v hi => ?_) fun v hi => ?_
      · rw [View.elementAddress_of_lt hi]
        rfl
      · rw [View.elementAddress_of_le hi]
  | get view index =>
      refine ends_element (fun v hi => ?_) fun v hi => ?_
      · rw [View.get_of_lt hi]
        rfl
      · rw [View.get_of_le hi]
  | set view index value =>
      refine ends_element (fun v hi => ?_) fun v hi => ?_
      · rw [View.set_of_lt hi]
        rfl
      · rw [View.set_of_le hi]
  | readElement view index =>
      refine ends_element (fun v hi => ?_) fun v hi => ?_
      · rw [Observer.readElement_of_lt hi]
        rfl
      · rw [Observer.readElement_of_le hi]
  | writeElement view index value =>
      refine ends_element (fun v hi => ?_) fun v hi => ?_
      · rw [Observer.writeElement_of_lt hi]
        rfl
      · rw [Observer.writeElement_of_le hi]
  | dropView | dropPool | poke | peek | sparsePoke | sparsePeek | sparseFill | setName | setError | metadata | register
    | record | addExtra | extras => exact ends_of_success rfl
  | capturePhase | captureInto => cases ha
  | scratch request => exact absurd rfl (harena request)
  | encodeExtras limit => exact absurd rfl (hencode limit)

theorem untouched_of_scratch_failure {request : ScratchAction} (h : (s.step (.scratch request)).1.isFailure) :
    s.Untouched (s.step (.scratch request)).2 := s.untouched_of_scratch (s.observer.scratch.step_untouched h) _

theorem untouched_of_not_target (h : s.Accounted) {a : Action} (ha : a.target? = none)
    (hfailure : (s.step a).1.isFailure) : s.Untouched (s.step a).2 := by
  by_cases harena : ∃ request, a = .scratch request
  · obtain ⟨request, rfl⟩ := harena
    exact untouched_of_scratch_failure hfailure
  by_cases hencode : ∃ limit, a = .encodeExtras limit
  · obtain ⟨limit, rfl⟩ := hencode
    exact .refl s
  · exact (step_ends h ha (not_exists.mp harena) (not_exists.mp hencode)).untouched hfailure

theorem isFailure_step_of_target {a : Action} {target : Option Phase} (ha : a.target? = some target) :
    (s.step a).1.isFailure = (s.step a).1.isFault := by
  cases a with
  | capturePhase phase =>
      rw [step]
      rcases s.observer.capturePhase s.reader phase with ⟨f | _, o⟩ <;> rfl
  | captureInto =>
      rw [step]
      rcases s.observer.captureInto s.reader s.captured with ⟨f | _, captured, o⟩ <;> rfl
  | _ => cases ha

theorem kept_of_target (h : s.Accounted) {a : Action} {target : Option Phase} (ha : a.target? = some target)
    (hfailure : (s.step a).1.isFailure) : s.Kept (s.step a).2 := by
  have hretained : (s.step a).2.observer.retained = s.observer.retained := by
    rw [isFailure_step_of_target ha] at hfailure
    rw [retained_step_of_target ha, if_pos (.inr hfailure)]
  have hbare := s.bare_step (a := a) (.inr (by rw [ha]; rfl))
  obtain ⟨hpolicy, hname, herror, hscratch⟩ := Observer.bare_eq_bare.mp hbare
  have hrest : (s.step a).2.views = s.views ∧ (s.step a).2.pools = s.pools ∧ (s.step a).2.process = s.process ∧
      (s.step a).2.sparse = s.sparse := by
    cases a with
    | capturePhase phase =>
        rw [state_step_capturePhase]
        exact ⟨rfl, rfl, rfl, rfl⟩
    | captureInto =>
        rw [state_step_captureInto]
        exact ⟨rfl, rfl, rfl, rfl⟩
    | _ => cases ha
  obtain ⟨hviews, hpools, hprocess, hsparse⟩ := hrest
  have hmade : Pools.Grows s.process.pools.made (s.step a).2.process.pools.made := .of_eq (by rw [hprocess])
  exact {
    retained := hretained
    commandName := hname
    error := herror
    observesApplication := hpolicy
    scratch := by
      rw [hscratch]
      exact .refl _
    views := hviews
    pools := hpools
    made := hmade
    alive := h.alive_eq hmade hviews hpools hretained
    memory := by rw [hprocess]
    sparse := hsparse }

end ends

/-- In every state that a run reaches, an action that fails leaves all as it was, and it fails just when it is refused.
Only a capture has then worked on what is pending and captured, and on nothing else. An unguarded request to the scratch
arena faults just when the guarded one is refused, with a message made of the error. -/
theorem failures_change_nothing (config : ObserverConfig) (readerOf : Memory → Memory → Reader)
    (placement : PoolPlacement) (source : ChunkSource) (actions : List Action) :
    let s := (Session.new config readerOf placement source).run actions
    (∀ a : Action, (s.step a).1.isFailure →
      s.Kept (s.step a).2 ∧ (a.target? = none → s.Untouched (s.step a).2)) ∧
    (∀ a : Action, (s.step a).1.isFailure →
      let before := s.observer.scratch
      let after := (s.step a).2.observer.scratch
      after.arena.used = before.arena.used ∧ after.arena.capacity = before.arena.capacity ∧
      after.arena.chunkCount = before.arena.chunkCount ∧ ∀ h, after.contents h = before.contents h) ∧
    (∀ a : Action, a.target? = none → (∀ request, a ≠ .scratch request) → (∀ limit, a ≠ .encodeExtras limit) →
      ∀ x, s.refusal? a = some x ↔ (s.step a).1 = x ∧ x.isFailure) ∧
    ∀ request guarded, request.guardedForm? = some guarded → ∀ f,
      (s.observer.scratch.step request).1 = .fault f ↔
        ∃ e, (s.observer.scratch.step guarded).1 = .refused e ∧ f = .scratch e ∧
          f.message = "scratch allocation failed: " ++ e.message := by
  intro s
  have haccounted : s.Accounted := (accounted_new config readerOf placement source).run actions
  have hkept : ∀ a : Action, (s.step a).1.isFailure → s.Kept (s.step a).2 := by
    intro a hfailure
    cases ha : a.target? with
    | none => exact (untouched_of_not_target haccounted ha hfailure).toKept
    | some target => exact kept_of_target haccounted ha hfailure
  refine ⟨fun a hfailure => ⟨hkept a hfailure, fun ha => untouched_of_not_target haccounted ha hfailure⟩,
    fun a hfailure => ?_, fun a ha harena hencode => (step_ends haccounted ha harena hencode).answer,
    fun request guarded hguarded f => ?_⟩
  · have hscratch := (hkept a hfailure).scratch
    exact ⟨hscratch.arena.used, hscratch.arena.capacity, hscratch.arena.chunkCount, hscratch.contents⟩
  · rw [Scratch.step_eq_fault _ hguarded]
    constructor
    · rintro ⟨e, he, rfl⟩
      exact ⟨e, he, rfl, rfl⟩
    · rintro ⟨e, he, hf, -⟩
      exact ⟨e, he, hf⟩

/-- A pool is made for the block of 32 bytes, and given up again as blocks are aligned more strictly than pools. -/
theorem over_aligned_view_untouched :
    let s := (Session.new .fullFidelity (fun m _ => m.reader) AddressSpace.placePool AddressSpace.placeChunk).run
      [.make "v" (.signed .w8) 3, .readStringView "v"]
    s.Untouched (s.step (.make "v" .block 1)).2 ∧
      (s.step (.make "v" .block 1)).2.process.pools.made.length = s.process.pools.made.length + 1 := by
  dsimp only
  obtain ⟨hfailures, -⟩ := failures_change_nothing .fullFidelity (fun m _ => m.reader) AddressSpace.placePool
    AddressSpace.placeChunk [.make "v" (.signed .w8) 3, .readStringView "v"]
  exact ⟨(hfailures (.make "v" .block 1) rfl).2 rfl, rfl⟩

theorem failed_capture_drops_pending :
    ¬∀ (actions : List Action) (a : Action),
      let s := (Session.new .lightweight (fun _ _ => Memory.pattern.reader) AddressSpace.placePool
        AddressSpace.placeChunk).run actions
      (s.step a).1.isFailure → (s.step a).2.observer.pending = s.observer.pending := by
  intro h
  have hpending := h [.register .read 0 (2 ^ 63)] (.capturePhase .read) rfl
  cases congrArg Coverage.isEmpty hpending

end Session

end CallCapture
