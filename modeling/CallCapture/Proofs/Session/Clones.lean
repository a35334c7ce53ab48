import CallCapture.Proofs.Session.Copies
import CallCapture.Proofs.Session.Placement

namespace CallCapture

section view

variable {t : ElementType} {v : View t} {pool : Pool}

theorem View.region_cloneOver (h : pool.size = v.byteLength) : (v.cloneOver pool).region = pool.region := by
  rw [Pool.region, h]
  rfl

theorem View.elements_cloneOver (v : View t) (pool : Pool) (m : Memory) :
    (v.cloneOver pool).elements (m.write pool.base (m.read v.base v.byteLength)) = v.elements m := by
  have hcopy : v.copyTo (v.cloneOver pool) m 0 v.count 0 =
      .ok (m.write pool.base (m.read v.base v.byteLength)) := by
    refine copyTo_eq_ok.mpr ⟨Nat.le_of_eq (Nat.zero_add _), Nat.le_of_eq (Nat.zero_add _), ?_⟩
    rw [Nat.zero_mul, Nat.add_zero, Nat.add_zero]
    rfl
  refine List.map_congr_left fun i hi => ?_
  have hcopied := element_copyTo hcopy (List.mem_range.mp hi)
  rwa [Nat.zero_add] at hcopied

theorem View.elements_of_disjoint (h : pool.region.Disjoint v.region) {m n : Memory}
    (hmemory : ∀ x, x < pool.base ∨ pool.base + pool.size ≤ x → n.byteAt x = m.byteAt x) :
    v.elements n = v.elements m :=
  elements_congr fun x hx => hmemory x (Region.not_contains_iff.mp (h.symm x hx))

end view

namespace Session

variable {taken : Nat → Prop} {s : Session} {t : ElementType} {v : View t} {pool : Pool}

theorem inUse_of_view (h : s.Grounded) {w : TypedView} (hw : w ∈ s.views.values)
    (hborrowed : w.view.backing = none → ∀ x, w.view.region.Contains x → s.InUse taken x) {x : Nat}
    (hx : w.view.region.Contains x) : s.InUse taken x := by
  cases hp : w.view.backing with
  | none => exact hborrowed hp x hx
  | some p => exact .inr ⟨p, alive_of_view h hw hp, (h.views w hw).contains hp hx⟩

/-- With `r` a view of the elements of `v` was made over a new pool, away from all memory in use, and it was named. The
source was registered, with its pool, and nothing of the clone. -/
structure Clones (taken : Nat → Prop) (s : Session) (v : View t) (name : String) (pool : Pool)
    (r : Answer × Session) : Prop where
  answer : r.1 = .view ⟨t, v.cloneOver pool⟩
  views : r.2.views = s.views.put name ⟨t, v.cloneOver pool⟩
  pools : r.2.pools = s.pools
  size : pool.size = v.byteLength
  new : pool ∉ s.process.pools.made
  made : r.2.process.pools.made = s.process.pools.made ++ [pool]
  not_taken : ∀ x, pool.region.Contains x → ¬taken x
  apart : ∀ p ∈ s.alive, pool.region.Disjoint p.region
  source_apart : pool.region.Disjoint v.region
  elements : (v.cloneOver pool).elements r.2.process.memory = v.elements s.process.memory
  source_elements : v.elements r.2.process.memory = v.elements s.process.memory
  pending : s.observer.Adds v.extent r.2.observer
  pending_apart : ∀ x, pool.region.Contains x → (x ∈ r.2.observer.pending ↔ x ∈ s.observer.pending)
  retained : r.2.observer.retained = s.observer.retained ++ v.region.pool?.toList
  not_retained : pool ∉ r.2.observer.retained

theorem clones_cloneView (h : s.Accounted) (hc : s.observer.pending.Canonical) {src : String}
    (hv : s.views.get? src = some ⟨t, v⟩) (name : String) (hmake : Process.makeFault? t v.count = none)
    (hborrowed : v.backing = none → ∀ x, v.region.Contains x → s.InUse taken x)
    (hplaced : s.PlacedApart taken (s.step (.cloneView src name)).2) :
    ∃ pool, s.Clones taken v name pool (s.step (.cloneView src name)) := by
  obtain ⟨pool, pools, hsize, hserial, hmade, hstep⟩ := step_cloneView_of_viewed hv name hmake
  rw [hstep] at hplaced ⊢
  have hview : ⟨t, v⟩ ∈ s.views.values := Names.mem_values_of_get? hv
  have hnew : pool ∉ s.process.pools.made := fun hp => absurd (h.serial pool hp) (by omega)
  have hfresh : pool ∈ pools.made.drop s.process.pools.made.length := by
    rw [hmade, List.drop_left]
    exact List.mem_cons_self
  have hfree : ∀ x, pool.region.Contains x → ¬s.InUse taken x := hplaced pool hfresh
  have hsource : pool.region.Disjoint v.region :=
    fun x hx hxv => hfree x hx (inUse_of_view h.grounded hview hborrowed hxv)
  have hcleared : v.elements (Process.clear s.process.memory pool) = v.elements s.process.memory :=
    View.elements_of_disjoint hsource fun x hx => Process.byteAt_clear_of_outside _ hx
  let o := s.observer.note (Event.ofPools s.process.pools pools)
  have hadds : s.observer.Adds v.extent (o.registerRegion .read v.region) :=
    Observer.adds_registerRegion (o := o) hc .read v.region
  have hretained := o.retained_registerRegion .read v.region
  refine ⟨pool, rfl, rfl, rfl, hsize, hnew, hmade, fun x hx htaken => hfree x hx (.inl htaken),
    fun p hp x hx hxp => hfree x hx (.inr ⟨p, hp, hxp⟩), hsource, ?_, ?_, hadds, fun x hx => ?_, hretained, fun hp => ?_⟩
  · exact (View.elements_cloneOver v pool _).trans hcleared
  · refine (View.elements_of_disjoint hsource fun x hx => Memory.byteAt_write_of_outside _ ?_).trans hcleared
    rw [Memory.length_read, ← hsize]
    exact hx
  · exact (hadds x).trans (or_iff_left fun hin => hsource x hx ⟨hin.1, (Nat.lt_min.mp hin.2).1⟩)
  · rcases List.mem_append.mp (hretained ▸ hp) with hkept | hp
    · exact hnew (h.retained pool hkept)
    · exact hnew (h.grounded.views _ hview pool (Region.pool?_eq_some.mp (Option.mem_toList.mp hp)).2).1

/-- The pool has no name, all views over it are copies of `v`, and it shares no byte with other memory in use. -/
structure Owns (taken : Nat → Prop) (s : Session) (v : TypedView) (pool : Pool) : Prop where
  backing : v.view.backing = some pool
  made : pool ∈ s.process.pools.made
  unnamed : pool ∉ s.pools.values
  copies : ∀ w ∈ s.views.values, w.view.backing = some pool → w = v
  not_taken : ∀ x, pool.region.Contains x → ¬taken x
  apart : pool ∈ s.alive → ∀ p ∈ s.alive, p ≠ pool → pool.region.Disjoint p.region

/-- A region that keeps off the pool: it is over another one, or it lies in memory that is taken, in that of the source,
and in other pools that are alive. -/
def Elsewhere (taken : Nat → Prop) (source : Region) (pool : Pool) (s : Session) (r : Region) : Prop :=
  (∃ p, r.backing = some p ∧ p ≠ pool) ∨
    ∀ x, r.Contains x → taken x ∨ source.Contains x ∨ ∃ p ∈ s.alive, p ≠ pool ∧ p.region.Contains x

theorem Clones.owns {a : Action} {name : String} (hs : s.Accounted) (h : s.Clones taken v name pool (s.step a)) :
    (s.step a).2.Owns taken ⟨t, v.cloneOver pool⟩ pool where
  backing := rfl
  made := by
    rw [h.made]
    exact List.mem_append_right _ List.mem_cons_self
  unnamed hp := by
    rw [h.pools] at hp
    exact h.new (hs.grounded.pools pool hp)
  copies w hw hbacking := by
    rw [h.views] at hw
    rcases Names.mem_values_put hw with rfl | hold
    · rfl
    · exact absurd (hs.grounded.views w hold pool hbacking).1 h.new
  not_taken := h.not_taken
  apart _ p hp hne := by
    rcases alive_step hs hp with hold | hfresh
    · exact h.apart p hold
    · rw [fresh_of_snoc h.made] at hfresh
      exact absurd (List.mem_singleton.mp hfresh) hne

namespace Owns

variable {w : TypedView} {a : Action} {actions : List Action}

theorem step (h : s.Owns taken w pool) (hs : s.Accounted) (hplaced : s.PlacedApart taken (s.step a).2) :
    (s.step a).2.Owns taken w pool where
  backing := h.backing
  made := (s.step_grounds a).made.kept.subset h.made
  unnamed hp := by
    rcases (s.step_inherits a).pools pool hp with hold | hfresh
    · exact h.unnamed hold
    · exact not_fresh_of_made hs h.made hfresh
  copies u hu hbacking := by
    rcases (s.step_inherits a).views u hu with hold | hbacked
    · exact h.copies u hold hbacking
    · rcases List.mem_append.mp (hbacked pool hbacking).1 with hname | hfresh
      · exact absurd hname h.unnamed
      · exact absurd hfresh (not_fresh_of_made hs h.made)
  not_taken := h.not_taken
  apart halive p hp hne := by
    have hbefore := alive_of_alive_step hs h.made halive
    rcases alive_step hs hp with hold | hfresh
    · exact h.apart hbefore p hold hne
    · exact fun x hx hxp => hplaced p hfresh x hxp (.inr ⟨pool, hbefore, hx⟩)

theorem run (h : s.Owns taken w pool) (hs : s.Accounted) (hsound : s.SoundlyPlaced taken actions) :
    (s.run actions).Owns taken w pool := by
  induction actions generalizing s with
  | nil => exact h
  | cons a rest ih => exact ih (h.step hs hsound.1) (hs.step a) hsound.2

theorem alive_iff (h : s.Owns taken w pool) :
    pool ∈ s.alive ↔ w ∈ s.views.values ∨ pool ∈ s.observer.retained := by
  rw [mem_alive]
  constructor
  · rintro ⟨-, ⟨u, hu, hbacking⟩ | hname | hretained⟩
    · exact .inl (h.copies u hu hbacking ▸ hu)
    · exact absurd hname h.unnamed
    · exact .inr hretained
  · rintro (hw | hretained)
    · exact ⟨h.made, .inl ⟨w, hw, h.backing⟩⟩
    · exact ⟨h.made, .inr (.inr hretained)⟩

theorem disjoint_of_elsewhere (h : s.Owns taken w pool) (hs : s.Accounted) (halive : pool ∈ s.alive)
    {source : Region} (hsource : pool.region.Disjoint source) {r : Region} (hr : s.written? a = some r)
    (helse : s.Elsewhere taken source pool r) : pool.region.Disjoint r := by
  intro x hx hxr
  rcases helse with ⟨p, hp, hne⟩ | hlies
  · rcases exists_view_of_written? hr with hnone | ⟨u, hu, rfl⟩
    · rw [hnone] at hp
      cases hp
    · have hbacked := hs.grounded.views u hu
      exact h.apart halive p (alive_of_view hs.grounded hu hp) hne x hx (hbacked.contains hp hxr)
  · rcases hlies x hxr with htaken | hxs | ⟨p, hp, hne, hxp⟩
    · exact h.not_taken x hx htaken
    · exact hsource x hx hxs
    · exact h.apart halive p hp hne x hx hxp

theorem spared (h : s.Owns taken w pool) (hs : s.Accounted) (hsound : s.SoundlyPlaced taken actions)
    (halive : pool ∈ (s.run actions).alive) {source : Region} (hsource : pool.region.Disjoint source)
    (helse : s.EveryWrite (Elsewhere taken source pool) actions) {x : Nat} (hx : pool.region.Contains x) :
    s.EveryWrite (fun _ r => ¬r.Contains x) actions := by
  induction actions generalizing s with
  | nil => trivial
  | cons a rest ih =>
      have hlast : pool ∈ (s.run (a :: rest)).alive := halive
      have hnow : pool ∈ s.alive := alive_of_alive_run hs h.made hlast
      refine ⟨fun r hr => ?_, ih (h.step hs hsound.1) (hs.step a) hsound.2 halive helse.2⟩
      exact h.disjoint_of_elsewhere hs hnow hsource hr (helse.1 r hr) x hx

end Owns

/-- In `e` and from there on, the clone of `v` over this pool and `v` itself do not see what is written to the other. -/
structure Isolated (taken : Nat → Prop) (v : View t) (pool : Pool) (e : Session) (after : List Action) : Prop where
  apart : pool ∈ e.alive → ∀ p ∈ e.alive, p ≠ pool → pool.region.Disjoint p.region
  copies : ∀ w ∈ e.views.values, w.view.backing = some pool → w = ⟨t, v.cloneOver pool⟩
  clone_kept : pool ∈ (e.run after).alive → e.EveryWrite (Elsewhere taken v.region pool) after →
    (v.cloneOver pool).elements (e.run after).process.memory = (v.cloneOver pool).elements e.process.memory
  source_kept : (∀ x, v.region.Contains x → e.Lasts taken (e.run after) x) →
    e.EveryWrite (fun _ r => ∀ x, r.Contains x → pool.region.Contains x) after →
    v.elements (e.run after).process.memory = v.elements e.process.memory
  alive_iff : pool ∈ e.alive ↔ ⟨t, v.cloneOver pool⟩ ∈ e.views.values ∨ pool ∈ e.observer.retained
  gone : pool ∉ e.alive → pool ∉ (e.run after).alive

theorem Owns.isolated {after : List Action} (h : s.Owns taken ⟨t, v.cloneOver pool⟩ pool) (hs : s.Accounted)
    (hsize : pool.size = v.byteLength) (hsource : pool.region.Disjoint v.region)
    (hsound : s.SoundlyPlaced taken after) : s.Isolated taken v pool after where
  apart := h.apart
  copies := h.copies
  clone_kept halive helse := by
    refine View.elements_congr fun x hx => ?_
    rw [View.region_cloneOver hsize] at hx
    exact byteAt_run hs hsound (.inr ⟨pool, h.made, halive, hx⟩) (h.spared hs hsound halive hsource helse hx)
  source_kept hlasts hwithin := by
    refine View.elements_congr fun x hx => byteAt_run hs hsound (hlasts x hx) ?_
    exact hwithin.mono fun s a hr r hwritten hxr => hsource x (hr r hwritten x hxr) hx
  alive_iff := h.alive_iff
  gone hdead halive := hdead (alive_of_alive_run hs h.made halive)

theorem not_retained_run {actions : List Action} (h : pool ∉ s.observer.retained)
    (hspared : s.EveryStep (fun s a => pool ∉ (s.registration a).pools) actions) :
    pool ∉ (s.run actions).observer.retained := by
  induction actions generalizing s with
  | nil => exact h
  | cons a rest ih =>
      refine ih (fun hp => ?_) hspared.2
      rcases mem_retained_step hp with hold | hnew
      · exact h hold
      · exact hspared.1 hnew

/-- In every state that a run reaches, a view that fits a pool is cloned to a new one, if the allocator keeps off all
memory in use: that of pools that are alive, and what else is taken, with the source if no pool is behind it. In any run
from there on, no write through the source or elsewhere changes an element of the clone, and no write to the clone's
pool an element of the source, as long as the memory of either is there. The pool is alive just as long as a copy of the
clone is or the observer keeps it, which it never does unless the clone is registered. -/
theorem clone_isolated (config : ObserverConfig) (readerOf : Memory → Memory → Reader) (placement : PoolPlacement)
    (source : ChunkSource) (actions : List Action) {t : ElementType} (v : View t) (src name : String)
    (taken : Nat → Prop) :
    let s := (Session.new config readerOf placement source).run actions
    let r := s.step (.cloneView src name)
    s.views.get? src = some ⟨t, v⟩ → t.align ≤ poolAlign → v.byteLength + (poolAlign - 1) ≤ maxBlockSize →
    (v.backing = none → ∀ x, v.region.Contains x → s.InUse taken x) → s.PlacedApart taken r.2 →
    ∃ pool, s.Clones taken v name pool r ∧
      ∀ before after, r.2.SoundlyPlaced taken (before ++ after) →
        (r.2.run before).Isolated taken v pool after ∧
        (r.2.EveryStep (fun s a => pool ∉ (s.registration a).pools) before →
          (pool ∈ (r.2.run before).alive ↔ ⟨t, v.cloneOver pool⟩ ∈ (r.2.run before).views.values)) := by
  intro s r hv halign hsize hborrowed hplaced
  have hs : s.Accounted := (accounted_new config readerOf placement source).run actions
  have hcanonical : s.observer.pending.Canonical := canonical_pending_run Coverage.canonical_empty actions
  obtain ⟨pool, hclones⟩ :=
    clones_cloneView hs hcanonical hv name (Process.makeFault?_eq_none halign hsize) hborrowed hplaced
  refine ⟨pool, hclones, fun before after hsound => ?_⟩
  obtain ⟨hbefore, hafter⟩ := everyStep_append.mp hsound
  have howns := (hclones.owns hs).run (hs.step _) hbefore
  refine ⟨howns.isolated ((hs.step _).run before) hclones.size hclones.source_apart hafter, fun hspared => ?_⟩
  exact howns.alive_iff.trans (or_iff_left (not_retained_run hclones.not_retained hspared))

theorem cloned_bytes_kept :
    let s := (Session.new .fullFidelity (fun m _ => m.reader) AddressSpace.placePool AddressSpace.placeChunk).run
      [.borrow "a" (.unsigned .w8) false 8 4, .poke 8 [1, 2, 3, 4]]
    let u := (s.step (.cloneView "a" "c")).2
    ∃ clone : View (.unsigned .w8), u.views.get? "c" = some ⟨_, clone⟩ ∧
      clone.elements (u.run [.set "a" 0 (.integer 9)]).process.memory = [1, 2, 3, 4] := by
  intro s u
  have hmade : u.process.pools.made = [⟨0, .first, AddressSpace.firstPool, 4⟩] := by decide
  have hplaced : s.PlacedApart (· < AddressSpace.firstPool) u := by
    intro p hp x hx huse
    rw [fresh, hmade] at hp
    obtain rfl := List.mem_singleton.mp hp
    rcases huse with htaken | ⟨q, hq, -⟩
    · exact Nat.not_lt.mpr hx.1 htaken
    · cases hq
  obtain ⟨pool, hclones, hisolated⟩ := clone_isolated .fullFidelity (fun m _ => m.reader) AddressSpace.placePool
    AddressSpace.placeChunk [.borrow "a" (.unsigned .w8) false 8 4, .poke 8 [1, 2, 3, 4]]
    (.borrow (.unsigned .w8) .application 8 4) "a" "c" (· < AddressSpace.firstPool) rfl (by decide) (by decide)
    (fun _ x hx => .inl (Nat.lt_trans hx.2 (by decide))) hplaced
  obtain rfl : pool = ⟨0, .first, AddressSpace.firstPool, 4⟩ := by
    rw [hclones.made] at hmade
    exact List.head_eq_of_cons_eq hmade
  have helsewhere : u.EveryWrite (Elsewhere (· < AddressSpace.firstPool)
      (View.borrow (.unsigned .w8) .application 8 4).region ⟨0, .first, AddressSpace.firstPool, 4⟩)
      [.set "a" 0 (.integer 9)] := by
    refine ⟨fun r hr => ?_, trivial⟩
    cases hr
    exact .inr fun x hx => .inr (.inl hx)
  have hsound : u.SoundlyPlaced (· < AddressSpace.firstPool) [.set "a" 0 (.integer 9)] :=
    ⟨fun p hp => (by cases hp), trivial⟩
  have hkept := (hisolated [] _ hsound).1.clone_kept List.mem_cons_self helsewhere
  exact ⟨_, hclones.views ▸ Names.get?_put_self _ _ _, hkept.trans (hclones.elements.trans (by decide))⟩

end Session

end CallCapture
