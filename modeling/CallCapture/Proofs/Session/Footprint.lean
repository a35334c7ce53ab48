import CallCapture.Element.Lemmas
import CallCapture.Proofs.Session.Gating

namespace CallCapture

def Action.byObserver : Action → Bool
  | .setName _ | .setError _ | .metadata | .register .. | .registerView .. | .registerForeign .. | .readElement ..
  | .writeElement .. | .copy .. | .cloneView .. | .readString _ | .readStringView _ | .capturePhase _ | .captureInto
  | .record | .addExtra _ | .extras | .encodeExtras _ | .scratch _ => true
  | _ => false

theorem View.element_le {t : ElementType} (v : View t) {index : Nat} (h : index < v.count) :
    index * t.size + t.size ≤ v.byteLength := by
  have hle := Nat.mul_le_mul_right t.size (Nat.succ_le_of_lt h)
  rwa [Nat.succ_mul] at hle

def View.cloneOver {t : ElementType} (v : View t) (pool : Pool) : View t :=
  ⟨pool.base, v.count, .tool pool.id, some pool⟩

def Region.Contains (r : Region) (x : Nat) : Prop := r.base ≤ x ∧ x < r.base + r.byteLength

theorem View.contains_of_element {t : ElementType} {v : View t} {index x : Nat} (h : index < v.count)
    (low : v.base + index * t.size ≤ x) (high : x < v.base + index * t.size + t.size) : v.region.Contains x := by
  have hin := v.element_le h
  refine ⟨Nat.le_trans (Nat.le_add_right _ _) low, ?_⟩
  change x < v.base + v.byteLength
  omega

namespace Session

/-- The action may change the byte at `x`. -/
inductive Writes (s : Session) : Action → Nat → Prop
  | element {t : ElementType} {v : View t} {view : String} {index x : Nat} {value : Literal}
      (named : s.views.get? view = some ⟨t, v⟩) (unobserved : ¬s.observer.observes v.owner) (inside : index < v.count)
      (low : v.base + index * t.size ≤ x) (high : x < v.base + index * t.size + t.size) :
      Writes s (.writeElement view index value) x
  | copied {t : ElementType} {v w : View t} {dst src name : String} {x : Nat}
      (filled : s.views.get? dst = some ⟨t, w⟩) (named : s.views.get? src = some ⟨t, v⟩)
      (unobserved : ¬s.observer.observes w.owner) (low : w.base ≤ x)
      (high : x < w.base + min v.count w.count * t.size) : Writes s (.copy dst src name) x
  | cloned {v : TypedView} {pool : Pool} {src name : String} {x : Nat} (named : s.views.get? src = some v)
      (viewed : Process.makeFault? v.elem v.view.count = none)
      (fresh : (s.step (.cloneView src name)).2.process.pools.made = s.process.pools.made ++ [pool])
      (low : pool.base ≤ x) (high : x < pool.base + pool.size) : Writes s (.cloneView src name) x

structure ChangesOnly (s : Session) (W : Nat → Prop) (t : Session) : Prop where
  byteAt : ∀ x, ¬W x → t.process.memory.byteAt x = s.process.memory.byteAt x
  sparse : t.sparse = s.sparse

section frame

variable {s t : Session} {W : Nat → Prop}

theorem changesOnly_of_eq (memory : t.process.memory = s.process.memory) (sparse : t.sparse = s.sparse) :
    s.ChangesOnly W t where
  byteAt x _ := congrArg (fun m => m.byteAt x) memory
  sparse := sparse

theorem changesOnly_withView {name : String} {act : TypedView → Answer × Session}
    (h : ∀ v, s.views.get? name = some v → s.ChangesOnly W (act v).2) : s.ChangesOnly W (s.withView name act).2 :=
  withView_cases (P := fun r => s.ChangesOnly W r.2) (changesOnly_of_eq rfl rfl) h

theorem changesOnly_writeElement (view : String) (index : Nat) (value : Literal) :
    s.ChangesOnly (s.Writes (.writeElement view index value)) (s.step (.writeElement view index value)).2 := by
  refine changesOnly_withView fun ⟨t, v⟩ hv => ?_
  dsimp only
  rcases Nat.lt_or_ge index v.count with hi | hi
  · rw [Observer.writeElement_of_lt hi]
    by_cases ho : s.observer.observes v.owner = true
    · rw [if_pos ho]
      exact changesOnly_of_eq rfl rfl
    · rw [if_neg ho]
      refine ⟨fun x hx => ?_, rfl⟩
      apply Memory.byteAt_write_of_outside
      rw [ElementType.length_encode]
      by_contra hin
      exact hx (.element hv ho hi (by omega) (by omega))
  · rw [Observer.writeElement_of_le hi]
    exact changesOnly_of_eq rfl rfl

theorem changesOnly_copy (dst src name : String) :
    s.ChangesOnly (s.Writes (.copy dst src name)) (s.step (.copy dst src name)).2 := by
  refine withViews_cases (P := fun r => s.ChangesOnly _ r.2) (changesOnly_of_eq rfl rfl) fun t w v hw hv => ?_
  rw [copy_eq]
  by_cases ho : s.observer.observes w.owner = true
  · rw [if_pos ho]
    exact changesOnly_of_eq rfl rfl
  · rw [if_neg ho]
    refine ⟨fun x hx => ?_, rfl⟩
    apply Memory.byteAt_write_of_outside
    rw [Memory.length_read]
    by_contra hin
    exact hx (.copied hw hv ho (by omega) (by omega))

theorem step_cloneView {v : TypedView} {src : String} (hv : s.views.get? src = some v) (name : String) :
    s.step (.cloneView src name) = s.cloneView v.view name := withView_of_some hv _

/-- The pool is cleared first, so the source is read as it is then. -/
theorem step_cloneView_of_viewed {t : ElementType} {v : View t} {src : String} (hv : s.views.get? src = some ⟨t, v⟩)
    (name : String) (hmake : Process.makeFault? t v.count = none) :
    ∃ pool pools, pool.size = v.byteLength ∧ pool.serial = s.process.pools.made.length ∧
      pools.made = s.process.pools.made ++ [pool] ∧
      s.step (.cloneView src name) = nameView
        { s with
          observer := (s.observer.note (Event.ofPools s.process.pools pools)).registerRegion .read v.region
          process := ⟨(Process.clear s.process.memory pool).write pool.base
            ((Process.clear s.process.memory pool).read v.base v.byteLength), pools⟩ } name (v.cloneOver pool) := by
  have hmakes := s.process.makes_make t v.count
  cases hmade : s.process.make t v.count with
  | mk result q =>
      rw [hmade] at hmakes
      cases hmakes with
      | refused fault | given_up fault =>
          rw [hmake] at fault
          cases fault
      | @viewed pool pools _ size serial made =>
          refine ⟨pool, pools, size, serial, made, ?_⟩
          rw [step_cloneView hv, cloneView_of_ok hmade, if_neg (by simp [Observer.observes, Ownership.isApplication]),
            Nat.min_self]
          rfl

theorem cloneView_spans {v : TypedView} {src : String} (hv : s.views.get? src = some v) (name : String)
    (hmake : Process.makeFault? v.elem v.view.count = none) :
    ∃ pool : Pool, ∃ w ∈ (s.step (.cloneView src name)).2.views.values,
      w.view.region = ⟨pool.base, pool.size, .tool pool.id, some pool⟩ ∧
      (s.step (.cloneView src name)).2.process.pools.made = s.process.pools.made ++ [pool] ∧
      s.ChangesOnly (fun x => pool.base ≤ x ∧ x < pool.base + pool.size) (s.step (.cloneView src name)).2 := by
  obtain ⟨t, v⟩ := v
  obtain ⟨pool, pools, hsize, -, hmade, hstep⟩ := step_cloneView_of_viewed hv name hmake
  rw [hstep]
  refine ⟨pool, _, Names.mem_values_put_self _ _ _, by rw [hsize]; rfl, hmade, fun x hx => ?_, rfl⟩
  -- the copy fills the pool, and nothing else was cleared for it
  have hout : x < pool.base ∨ pool.base + pool.size ≤ x := by omega
  refine (Memory.byteAt_write_of_outside _ ?_).trans (Process.byteAt_clear_of_outside _ hout)
  rw [Memory.length_read, ← hsize]
  exact hout

theorem changesOnly_cloneView (src name : String) :
    s.ChangesOnly (s.Writes (.cloneView src name)) (s.step (.cloneView src name)).2 := by
  cases hv : s.views.get? src with
  | none =>
      rw [step, withView, hv]
      exact changesOnly_of_eq rfl rfl
  | some v =>
      cases hmake : Process.makeFault? v.elem v.view.count with
      | none =>
          obtain ⟨pool, -, -, -, hfresh, hchanges⟩ := cloneView_spans hv name hmake
          refine ⟨fun x hx => hchanges.byteAt x fun hin => ?_, hchanges.sparse⟩
          exact hx (.cloned hv hmake hfresh hin.1 hin.2)
      | some f =>
          have hmakes := s.process.makes_make v.elem v.view.count
          cases hmade : s.process.make v.elem v.view.count with
          | mk result q =>
              rw [hmade] at hmakes
              rw [step_cloneView hv]
              cases hmakes with
              | refused | given_up =>
                  rw [cloneView_of_error hmade]
                  exact changesOnly_of_eq rfl rfl
              | viewed fault =>
                  rw [hmake] at fault
                  cases fault

theorem step_changesOnly (s : Session) {a : Action} (ha : a.byObserver) :
    s.ChangesOnly (s.Writes a) (s.step a).2 := by
  cases a with
  | writeElement view index value => exact changesOnly_writeElement view index value
  | copy dst src name => exact changesOnly_copy dst src name
  | cloneView src name => exact changesOnly_cloneView src name
  | setName | setError | metadata | register | record | addExtra | extras | encodeExtras | scratch =>
      exact changesOnly_of_eq rfl rfl
  | registerView phase view => exact changesOnly_withView fun v _ => changesOnly_of_eq rfl rfl
  | registerForeign phase base length tool => cases tool <;> exact changesOnly_of_eq rfl rfl
  | readElement view index =>
      refine changesOnly_withView fun v _ => ?_
      rcases s.observer.readElement s.process.memory v.view index with ⟨f | value, o⟩ <;>
        exact changesOnly_of_eq rfl rfl
  | readString address =>
      rw [step]
      rcases s.observer.readString s.process.memory address with ⟨e | text, o⟩ <;> exact changesOnly_of_eq rfl rfl
  | readStringView view =>
      refine changesOnly_withView fun v _ => ?_
      cases v.at? characterType <;> exact changesOnly_of_eq rfl rfl
  | capturePhase phase =>
      rw [state_step_capturePhase]
      exact changesOnly_of_eq rfl rfl
  | captureInto =>
      rw [state_step_captureInto]
      exact changesOnly_of_eq rfl rfl
  | _ => cases ha

theorem scratch_step (s : Session) {a : Action} (h : ∀ request, a ≠ .scratch request) :
    (s.step a).2.observer.scratch = s.observer.scratch := by
  cases a with
  | scratch request => exact absurd rfl (h request)
  | setName | setError | addExtra => rfl
  | capturePhase | captureInto => exact (Observer.bare_eq_bare.mp (s.bare_step (.inr rfl))).2.2.2
  | _ => exact (Observer.bare_eq_bare.mp (s.bare_step (.inl rfl))).2.2.2

end frame

/-- `P` holds in every state of the run, its first and its last included. -/
def Throughout (P : Session → Prop) (s : Session) : List Action → Prop
  | [] => P s
  | a :: rest => P s ∧ (s.step a).2.Throughout P rest

theorem Throughout.first {P : Session → Prop} {s : Session} {actions : List Action}
    (h : s.Throughout P actions) : P s := by
  cases actions with
  | nil => exact h
  | cons a rest => exact h.1

def ToolApart (app : Nat → Prop) (s : Session) : Prop :=
  ∀ v ∈ s.views.values, v.view.owner ≠ .application → ∀ x, app x → ¬v.view.region.Contains x

section application

variable {s : Session} {app : Nat → Prop}

theorem Writes.not_app {a : Action} {x : Nat} (h : s.Writes a x) (policy : s.observer.observesApplication = true)
    (before : s.ToolApart app) (after : (s.step a).2.ToolApart app) : ¬app x := by
  have htool : ∀ {owner : Ownership}, ¬s.observer.observes owner → owner ≠ .application :=
    fun ho happ => ho (Observer.observes_iff.mpr ⟨policy, happ⟩)
  intro hx
  cases h with
  | @element t v view index x value named unobserved inside low high =>
      exact before _ (Names.mem_values_of_get? named) (htool unobserved) x hx (View.contains_of_element inside low high)
  | @copied t v w dst src name x filled named unobserved low high =>
      have hle : min v.count w.count * t.size ≤ w.byteLength := Nat.mul_le_mul_right t.size (Nat.min_le_right _ _)
      refine before _ (Names.mem_values_of_get? filled) (htool unobserved) x hx ⟨low, ?_⟩
      change x < w.base + w.byteLength
      omega
  | @cloned v pool src name x named viewed fresh low high =>
      obtain ⟨pool', w, hw, hregion, hfresh, -⟩ := cloneView_spans named name viewed
      obtain rfl : pool = pool' := by
        rw [fresh, List.append_cancel_left_eq] at hfresh
        exact List.head_eq_of_cons_eq hfresh
      have howner : w.view.owner = .tool pool.id := congrArg Region.owner hregion
      refine after w hw (by rw [howner]; exact nofun) x hx ?_
      rw [hregion]
      exact ⟨low, high⟩

theorem byteAt_run_of_app (policy : s.observer.observesApplication = true) {ops : List Action}
    (observer : ∀ a ∈ ops, a.byObserver) (apart : s.Throughout (ToolApart app) ops) {x : Nat} (hx : app x) :
    (s.run ops).process.memory.byteAt x = s.process.memory.byteAt x := by
  induction ops generalizing s with
  | nil => rfl
  | cons a rest ih =>
      obtain ⟨before, hrest⟩ := apart
      obtain ⟨ha, hobserver⟩ := List.forall_mem_cons.mp observer
      have hpolicy : (s.step a).2.observer.observesApplication = true := (s.observesApplication_step a).trans policy
      have hstep : (s.step a).2.process.memory.byteAt x = s.process.memory.byteAt x := by
        apply (s.step_changesOnly ha).byteAt
        intro hw
        exact hw.not_app policy before hrest.first hx
      exact (ih hpolicy hobserver hrest).trans hstep

end application

/-- In every state that a run reaches, an operation of the observer changes no byte but of the element that it writes
through an unobserved view, of the elements that it copies to one, and of the pool that it makes for a clone. Under the
full policy no operations of the observer, however many, change a byte of the application's memory as long as no view of
the tool reaches into it. -/
theorem observer_spares_memory (config : ObserverConfig) (readerOf : Memory → Memory → Reader)
    (placement : PoolPlacement) (source : ChunkSource) (actions : List Action) :
    let s := (Session.new config readerOf placement source).run actions
    (∀ a : Action, a.byObserver → (s.step a).2.sparse = s.sparse ∧
      ∀ x, (s.step a).2.process.memory.byteAt x ≠ s.process.memory.byteAt x → s.Writes a x) ∧
    (∀ a : Action, (∀ request, a ≠ .scratch request) → (s.step a).2.observer.scratch = s.observer.scratch) ∧
    ∀ (app : Nat → Prop) (ops : List Action), config.observesApplication = true → (∀ a ∈ ops, a.byObserver) →
      s.Throughout (ToolApart app) ops →
      ∀ x, app x → (s.run ops).process.memory.byteAt x = s.process.memory.byteAt x := by
  intro s
  refine ⟨fun a ha => ⟨(s.step_changesOnly ha).sparse, fun x hx => ?_⟩, fun a ha => s.scratch_step ha,
    fun app ops policy observer apart x hx => ?_⟩
  · by_contra hw
    exact hx ((s.step_changesOnly ha).byteAt x hw)
  · have hpolicy : s.observer.observesApplication = true := (observesApplication_run _ actions).trans policy
    exact byteAt_run_of_app hpolicy observer apart hx

theorem bytes_spared_by_copies :
    let s := (Session.new .fullFidelity (fun m _ => m.reader) AddressSpace.placePool AddressSpace.placeChunk).run
      [.borrow "a" (.unsigned .w8) false 8 4, .poke 8 [1, 2, 3, 4], .make "t" (.unsigned .w8) 4]
    ∀ x, 8 ≤ x ∧ x < 12 →
      (s.run [.writeElement "a" 0 (.integer 9), .copy "a" "t" "r", .copy "t" "a" "r"]).process.memory.byteAt x =
        s.process.memory.byteAt x := by
  dsimp only
  obtain ⟨-, -, hspared⟩ := observer_spares_memory .fullFidelity (fun m _ => m.reader) AddressSpace.placePool
    AddressSpace.placeChunk [.borrow "a" (.unsigned .w8) false 8 4, .poke 8 [1, 2, 3, 4], .make "t" (.unsigned .w8) 4]
  have hfar : ∀ t : Session, (∀ v ∈ t.views.values, v.view.owner = .application ∨ 12 ≤ v.view.base) →
      t.ToolApart fun x => 8 ≤ x ∧ x < 12 := by
    intro t h v hv howner x hx hin
    rcases h v hv with happ | hbase
    · exact howner happ
    · exact Nat.not_lt.mpr (Nat.le_trans hbase hin.1) hx.2
  exact hspared _ _ rfl (by decide) ⟨hfar _ (by decide), hfar _ (by decide), hfar _ (by decide), hfar _ (by decide)⟩

end Session

end CallCapture
