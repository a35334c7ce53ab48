import CallCapture.Proofs.Session.Pools
import Mathlib.Data.List.Nodup

namespace CallCapture

theorem PoolId.value_next_add (i : PoolId) (k : Nat) :
    i.next.value + UInt32.ofNat k = i.value + UInt32.ofNat (k + 1) := by
  rw [UInt32.ofNat_add, UInt32.add_comm (UInt32.ofNat k), ← UInt32.add_assoc]
  rfl

/-- What an id stands for: a pool, or a view of the tool that has none. -/
inductive Origin
  | pool (p : Pool)
  | view (v : TypedView)

/-- All views of a pool go back to it, and a view without a pool to itself, as do its copies. -/
def TypedView.origin (v : TypedView) : Origin := v.view.backing.elim (.view v) .pool

abbrev Issue := PoolId × Option Origin

inductive Pools.Issues (ps : Pools) : (taken : Bool) → Pools → Prop
  | unchanged : Issues ps false ps
  | spent : Issues ps true ps.takeId.2
  | pooled {pool : Pool} (id : pool.id = ps.nextId) : Issues ps true { ps.takeId.2 with made := ps.made ++ [pool] }

theorem Pools.issues_create (ps : Pools) (size : Nat) : ps.Issues true (ps.create size).2 := by
  simp only [create]
  split
  · exact .spent
  · exact .pooled rfl

namespace Process

theorem issues_createPool (p : Process) (size : Nat) : p.pools.Issues true (p.createPool size).2.pools := by
  have hissues := p.pools.issues_create size
  rw [createPool]
  rcases hcreate : p.pools.create size with ⟨f | pool, pools⟩ <;> rwa [hcreate] at hissues

theorem issues_make (p : Process) (t : ElementType) (count : Nat) :
    p.pools.Issues (decide (count * t.size < sizeLimit)) (p.make t count).2.pools := by
  have hissues := p.pools.issues_create (count * t.size)
  rw [make]
  by_cases hview : sizeLimit ≤ count * t.size
  · rw [if_pos hview, decide_eq_false (Nat.not_lt.mpr hview)]
    exact .unchanged
  · rw [if_neg hview, decide_eq_true (Nat.not_le.mp hview)]
    rcases hcreate : p.pools.create (count * t.size) with ⟨f | pool, pools⟩
    · rwa [hcreate] at hissues
    · rw [hcreate] at hissues
      dsimp only
      cases View.overPool t pool count <;> exact hissues

end Process

namespace Session

/-- Whether the action takes an id, be it for a pool that cannot be made or viewed. -/
def takesId (s : Session) : Action → Bool
  | .borrow _ _ tool _ _ | .registerForeign _ _ _ tool => tool
  | .make _ t count => decide (count * t.size < sizeLimit)
  | .createPool .. => true
  | .cloneView src _ => (s.views.get? src).any fun v => decide (v.view.count * v.elem.size < sizeLimit)
  | _ => false

def handedOut (s : Session) : List Action → List PoolId
  | [] => []
  | a :: rest => (if s.takesId a then [s.process.pools.nextId] else []) ++ (s.step a).2.handedOut rest

/-- From `s` to `t` at most one id was handed out. New pools, and new views of the tool without a pool, have it. -/
structure Hands (s : Session) (taken : Bool) (issues : List Issue) (t : Session) : Prop where
  ids : issues.map Prod.fst = if taken then [s.process.pools.nextId] else []
  next : t.process.pools.nextId = if taken then s.process.pools.nextId.next else s.process.pools.nextId
  made : ∀ p ∈ t.process.pools.made, p ∈ s.process.pools.made ∨ (p.id, some (.pool p)) ∈ issues
  views : ∀ v ∈ t.views.values, v.view.backing = none → ∀ id, v.view.owner = .tool id →
    v ∈ s.views.values ∨ (id, some (.view v)) ∈ issues

section hands

variable {s t : Session} {taken : Bool}

theorem exists_hands_of_pools (pools : s.process.pools.Issues taken t.process.pools)
    (views : ∀ v ∈ t.views.values, v.view.backing = none → ∀ id, v.view.owner = .tool id → v ∈ s.views.values) :
    ∃ issues, s.Hands taken issues t := by
  have hviews : ∀ issues : List Issue, ∀ v ∈ t.views.values, v.view.backing = none → ∀ id, v.view.owner = .tool id →
      v ∈ s.views.values ∨ (id, some (.view v)) ∈ issues :=
    fun _ v hv hbacking id howner => .inl (views v hv hbacking id howner)
  generalize hafter : t.process.pools = after at pools
  cases pools with
  | unchanged => exact ⟨[], rfl, by rw [hafter]; rfl, fun p hp => .inl (hafter ▸ hp), hviews _⟩
  | spent =>
      refine ⟨[(s.process.pools.nextId, none)], rfl, by rw [hafter]; rfl, fun p hp => .inl ?_, hviews _⟩
      rw [hafter] at hp
      exact hp
  | @pooled pool id =>
      refine ⟨[(s.process.pools.nextId, some (.pool pool))], rfl, by rw [hafter]; rfl, fun p hp => ?_, hviews _⟩
      rw [hafter] at hp
      rcases List.mem_append.mp hp with hold | hnew
      · exact .inl hold
      · obtain rfl := List.mem_singleton.mp hnew
        exact .inr (List.mem_singleton.mpr (by rw [id]))

theorem exists_hands_of_eq (pools : t.process.pools = s.process.pools)
    (views : ∀ v ∈ t.views.values, v ∈ s.views.values) : ∃ issues, s.Hands false issues t :=
  exists_hands_of_pools (pools ▸ .unchanged) fun v hv _ _ _ => views v hv

theorem exists_hands_of_undisturbed (h : s.Undisturbed t) : ∃ issues, s.Hands false issues t :=
  exists_hands_of_eq h.pools fun _ hv => h.views ▸ hv

theorem exists_hands_put {name : String} {v : TypedView} (pools : s.process.pools.Issues taken t.process.pools)
    (views : t.views = s.views.put name v)
    (known : v.view.backing = none → ∀ id, v.view.owner = .tool id → v ∈ s.views.values) :
    ∃ issues, s.Hands taken issues t := by
  refine exists_hands_of_pools pools fun w hw hbacking id howner => ?_
  rw [views] at hw
  rcases Names.mem_values_put hw with rfl | hold
  · exact known hbacking id howner
  · exact hold

theorem exists_hands_borrow (s : Session) (name : String) (t : ElementType) (tool : Bool) (base count : Nat) :
    ∃ issues, s.Hands tool issues (s.borrow name t tool base count).2 := by
  cases tool with
  | false => exact exists_hands_put .unchanged rfl nofun
  | true =>
      let v : TypedView := ⟨t, .borrow t (.tool s.process.pools.nextId) base count⟩
      refine ⟨[(s.process.pools.nextId, some (.view v))], rfl, rfl, fun p hp => .inl hp, fun w hw _ id howner => ?_⟩
      rcases Names.mem_values_put hw with rfl | hold
      · cases howner
        exact .inr (List.mem_singleton_self _)
      · exact .inl hold

theorem exists_hands_make (s : Session) (name : String) (t : ElementType) (count : Nat) :
    ∃ issues, s.Hands (decide (count * t.size < sizeLimit)) issues (s.make name t count).2 := by
  have hissues := s.process.issues_make t count
  rw [make]
  rcases hmake : s.process.make t count with ⟨f | v, p⟩
  · rw [hmake] at hissues
    exact exists_hands_of_pools hissues fun _ hv _ _ _ => hv
  · rw [hmake] at hissues
    exact exists_hands_put hissues rfl fun hbacking => absurd hbacking (Process.backing_of_make hmake)

theorem exists_hands_createPool (s : Session) (name : String) (size : Nat) :
    ∃ issues, s.Hands true issues (s.createPool name size).2 := by
  have hissues := s.process.issues_createPool size
  rw [createPool]
  rcases hcreate : s.process.createPool size with ⟨f | pool, p⟩ <;> rw [hcreate] at hissues <;>
    exact exists_hands_of_pools hissues fun _ hv _ _ _ => hv

theorem exists_hands_overPool (s : Session) (name : String) (t : ElementType) (pool : String) :
    ∃ issues, s.Hands false issues (s.overPool name t pool).2 := by
  rw [overPool]
  cases s.pools.get? pool with
  | none => exact exists_hands_of_eq rfl fun _ hv => hv
  | some pool =>
      dsimp only
      cases hview : View.ofPool t pool with
      | error f => exact exists_hands_of_eq rfl fun _ hv => hv
      | ok v => exact exists_hands_put .unchanged rfl fun hbacking => absurd hbacking (View.backing_of_ofPool hview)

theorem exists_hands_cloneView {t : ElementType} (s : Session) (src : View t) (name : String) :
    ∃ issues, s.Hands (decide (src.count * t.size < sizeLimit)) issues (s.cloneView src name).2 := by
  have hissues := s.process.issues_make t src.count
  rcases hmake : s.process.make t src.count with ⟨f | v, p⟩
  · rw [hmake] at hissues
    rw [cloneView_of_error hmake]
    exact exists_hands_of_pools hissues fun _ hv _ _ _ => hv
  · rw [hmake] at hissues
    rw [cloneView_of_ok hmake]
    exact exists_hands_put hissues rfl fun hbacking => absurd hbacking (Process.backing_of_make hmake)

theorem exists_hands_step (s : Session) (a : Action) : ∃ issues, s.Hands (s.takesId a) issues (s.step a).2 := by
  have hsame : ∃ issues, s.Hands false issues s := exists_hands_of_eq rfl fun _ hv => hv
  cases a with
  | borrow name t tool base count => exact exists_hands_borrow s name t tool base count
  | make name t count => exact exists_hands_make s name t count
  | overPool name t pool => exact exists_hands_overPool s name t pool
  | createPool name size => exact exists_hands_createPool s name size
  | share view name =>
      refine withView_cases (P := fun r => ∃ issues, s.Hands false issues r.2) hsame fun v hv => ?_
      exact exists_hands_put .unchanged rfl fun _ _ _ => Names.mem_values_of_get? hv
  | dropView view => exact exists_hands_of_eq rfl fun _ hv => Names.mem_values_of_mem_erase hv
  | dropPool pool => exact exists_hands_of_eq rfl fun _ hv => hv
  | copy dst src name =>
      refine withViews_cases (P := fun r => ∃ issues, s.Hands false issues r.2) hsame fun t v w hv _ => ?_
      rw [copy_eq]
      exact exists_hands_put .unchanged rfl fun _ _ _ => Names.mem_values_of_get? hv
  | cloneView src name =>
      rw [takesId, step]
      cases hsrc : s.views.get? src with
      | none =>
          rw [withView_of_none hsrc]
          exact hsame
      | some v =>
          rw [withView_of_some hsrc]
          exact exists_hands_cloneView s v.view name
  | registerForeign phase base length tool =>
      cases tool with
      | false => exact exists_hands_of_eq rfl fun _ hv => hv
      | true => exact exists_hands_of_pools .spent fun _ hv _ _ _ => hv
  | _ => exact exists_hands_of_undisturbed (s.undisturbed_step rfl)

end hands

structure Traced (s : Session) (ledger : List Issue) : Prop where
  made : ∀ p ∈ s.process.pools.made, (p.id, some (.pool p)) ∈ ledger
  views : ∀ v ∈ s.views.values, v.view.backing = none → ∀ id, v.view.owner = .tool id → (id, some (.view v)) ∈ ledger

section traced

variable {s t : Session} {ledger : List Issue} {actions : List Action}

theorem Traced.mono (h : s.Traced ledger) (more : List Issue) : s.Traced (ledger ++ more) where
  made p hp := List.mem_append_left _ (h.made p hp)
  views v hv hbacking id howner := List.mem_append_left _ (h.views v hv hbacking id howner)

theorem Hands.traced {taken : Bool} {issues : List Issue} (h : s.Hands taken issues t) (hs : s.Traced ledger) :
    t.Traced (ledger ++ issues) where
  made p hp := (h.made p hp).elim (fun hold => List.mem_append_left _ (hs.made p hold)) (List.mem_append_right _)
  views v hv hbacking id howner := (h.views v hv hbacking id howner).elim
    (fun hold => List.mem_append_left _ (hs.views v hold hbacking id howner)) (List.mem_append_right _)

theorem Traced.origin (h : s.Traced ledger) (hs : s.Grounded) {v : TypedView} (hv : v ∈ s.views.values) {id : PoolId}
    (howner : v.view.owner = .tool id) : (id, some v.origin) ∈ ledger := by
  cases hbacking : v.view.backing with
  | none =>
      rw [TypedView.origin, hbacking]
      exact h.views v hv hbacking id howner
  | some p =>
      obtain ⟨hmade, -, -, htag⟩ := hs.views v hv p hbacking
      have hid : id = p.id := Ownership.tool.inj (howner.symm.trans htag)
      rw [TypedView.origin, hbacking, hid]
      exact h.made p hmade

theorem exists_ledger (h : s.Traced ledger) (actions : List Action) :
    ∃ more, more.map Prod.fst = s.handedOut actions ∧
      ∀ earlier, earlier <+: actions → (s.run earlier).Traced (ledger ++ more) := by
  -- a ledger that accounts for a state accounts for it with later entries as well, so one will do for all prefixes
  induction actions generalizing s ledger with
  | nil =>
      refine ⟨[], rfl, fun earlier hearlier => ?_⟩
      obtain rfl := List.prefix_nil.mp hearlier
      exact h.mono []
  | cons a rest ih =>
      obtain ⟨issues, hissues⟩ := s.exists_hands_step a
      obtain ⟨more, hmore, hall⟩ := ih (hissues.traced h)
      refine ⟨issues ++ more, ?_, fun earlier hearlier => ?_⟩
      · rw [List.map_append, hissues.ids, hmore]
        rfl
      · rcases List.prefix_cons_iff.mp hearlier with rfl | ⟨before, rfl, hbefore⟩
        · exact h.mono _
        · rw [← List.append_assoc]
          exact hall before hbefore

end traced

section counter

variable {s : Session} {actions : List Action} {k : Nat}

theorem getElem?_handedOut (h : k < (s.handedOut actions).length) :
    (s.handedOut actions)[k]? = some ⟨s.process.pools.nextId.value + UInt32.ofNat k⟩ := by
  induction actions generalizing s k with
  | nil => exact absurd h (Nat.not_lt_zero k)
  | cons a rest ih =>
      obtain ⟨issues, hissues⟩ := s.exists_hands_step a
      have hnext := hissues.next
      rw [handedOut] at h ⊢
      cases htaken : s.takesId a with
      | false =>
          rw [htaken] at h hnext
          rw [if_neg Bool.false_ne_true] at hnext
          rw [← hnext]
          exact ih h
      | true =>
          rw [htaken] at h hnext
          rw [if_pos rfl] at hnext
          cases k with
          | zero =>
              change some s.process.pools.nextId = some ⟨s.process.pools.nextId.value + 0⟩
              rw [UInt32.add_zero]
          | succ k =>
              have hrest := ih (s := (s.step a).2) (k := k) (Nat.lt_of_succ_lt_succ h)
              rw [hnext, PoolId.value_next_add] at hrest
              exact hrest

theorem mem_handedOut {id : PoolId} :
    id ∈ s.handedOut actions ↔
      ∃ k < (s.handedOut actions).length, id.value = s.process.pools.nextId.value + UInt32.ofNat k := by
  rw [List.mem_iff_getElem?]
  constructor
  · rintro ⟨k, hk⟩
    obtain ⟨hlt, -⟩ := List.getElem?_eq_some_iff.mp hk
    rw [getElem?_handedOut hlt, Option.some.injEq] at hk
    exact ⟨k, hlt, congrArg PoolId.value hk.symm⟩
  · rintro ⟨k, hlt, hvalue⟩
    exact ⟨k, by rw [getElem?_handedOut hlt, ← hvalue]⟩

theorem mem_handedOut_of_le (h : UInt32.size ≤ (s.handedOut actions).length) (id : PoolId) :
    id ∈ s.handedOut actions := by
  have hlt := (id.value - s.process.pools.nextId.value).toNat_lt
  refine mem_handedOut.mpr ⟨_, Nat.lt_of_lt_of_le hlt h, ?_⟩
  rw [UInt32.ofNat_toNat, UInt32.add_comm, UInt32.sub_add_cancel]

theorem nodup_handedOut_iff : (s.handedOut actions).Nodup ↔ (s.handedOut actions).length ≤ UInt32.size := by
  rw [List.nodup_iff_getElem?_ne_getElem?]
  constructor
  · intro hdistinct
    by_contra hlong
    have hsize : UInt32.size < (s.handedOut actions).length := Nat.not_le.mp hlong
    have hround : UInt32.ofNat 0 = UInt32.ofNat UInt32.size := by decide
    apply hdistinct 0 UInt32.size (by decide) hsize
    rw [getElem?_handedOut hsize, getElem?_handedOut (Nat.zero_lt_of_lt hsize), hround]
  · intro hle i j hij hj hsame
    rw [getElem?_handedOut (Nat.lt_trans hij hj), getElem?_handedOut hj, Option.some.injEq] at hsame
    have hvalue := (UInt32.add_right_inj _).mp (congrArg PoolId.value hsame)
    have hnumber := congrArg UInt32.toNat hvalue
    rw [UInt32.toNat_ofNat_of_lt' (by omega), UInt32.toNat_ofNat_of_lt' (by omega)] at hnumber
    omega

end counter

variable (config : ObserverConfig) (readerOf : Memory → Memory → Reader) (placement : PoolPlacement)
  (source : ChunkSource)

theorem traced_new : (Session.new config readerOf placement source).Traced [] := ⟨nofun, nofun⟩

/-- Counted from zero, the id at place `k` of a run is `k + 1` as a 32-bit word. So all ids are distinct just when there
are no more of them than words, and zero is not among them just when there are fewer. All pools and all views of the tool
have their tags from these ids, and as long as the ids are distinct, two views, at whatever times in the run, have the
same tag only if they are views of the same pool or the same view of the tool. -/
theorem ids_distinct_until_wrap (actions : List Action) :
    let s := Session.new config readerOf placement source
    let ids := s.handedOut actions
    (∀ k id, ids[k]? = some id → id.value = UInt32.ofNat (k + 1)) ∧
    (ids.Nodup ↔ ids.length ≤ UInt32.size) ∧
    (⟨0⟩ ∉ ids ↔ ids.length < UInt32.size) ∧
    (∀ earlier, earlier <+: actions →
      (∀ p ∈ (s.run earlier).process.pools.made, p.id ∈ ids) ∧
      ∀ v ∈ (s.run earlier).views.values, ∀ id, v.view.owner = .tool id → id ∈ ids) ∧
    (ids.length ≤ UInt32.size → ∀ earlier later, earlier <+: actions → later <+: actions →
      ∀ v ∈ (s.run earlier).views.values, ∀ w ∈ (s.run later).views.values, ∀ id,
        v.view.owner = .tool id → w.view.owner = .tool id → v.origin = w.origin) := by
  intro s ids
  have hvalue : ∀ k, s.process.pools.nextId.value + UInt32.ofNat k = UInt32.ofNat (k + 1) := fun k => by
    rw [UInt32.ofNat_add, UInt32.add_comm]
    rfl
  obtain ⟨ledger, hids, htraced⟩ := exists_ledger (traced_new config readerOf placement source) actions
  have hmem : ∀ issue ∈ ledger, issue.1 ∈ s.handedOut actions := fun issue hissue => by
    rw [← hids]
    exact List.mem_map_of_mem hissue
  have htag : ∀ earlier, earlier <+: actions → ∀ v ∈ (s.run earlier).views.values, ∀ id, v.view.owner = .tool id →
      (id, some v.origin) ∈ ledger := fun earlier hearlier v hv id howner =>
    (htraced earlier hearlier).origin ((s.run_grounds earlier).grounded (grounded_new ..)) hv howner
  refine ⟨fun k id hk => ?_, nodup_handedOut_iff, ?_,
    fun earlier hearlier => ⟨fun p hp => ?_, fun v hv id howner => ?_⟩,
    fun hle earlier later hearlier hlater v hv w hw id hvid hwid => ?_⟩
  · obtain ⟨hlt, -⟩ := List.getElem?_eq_some_iff.mp hk
    rw [getElem?_handedOut hlt, Option.some.injEq] at hk
    rw [← hk, ← hvalue]
  · rw [← Nat.not_le, not_iff_not]
    refine ⟨fun hzero => ?_, fun hlong => mem_handedOut_of_le hlong ⟨0⟩⟩
    obtain ⟨k, hlt, hzero⟩ := mem_handedOut.mp hzero
    have hnumber := congrArg UInt32.toNat (hzero.trans (hvalue k))
    rw [UInt32.toNat_ofNat'] at hnumber
    have hround : UInt32.size ∣ k + 1 := Nat.dvd_of_mod_eq_zero hnumber.symm
    exact Nat.le_trans (Nat.le_of_dvd (Nat.succ_pos k) hround) hlt
  · exact hmem _ ((htraced earlier hearlier).made p hp)
  · exact hmem _ (htag earlier hearlier v hv id howner)
  · have hdistinct : (ledger.map Prod.fst).Nodup := by
      rw [hids]
      exact nodup_handedOut_iff.mpr hle
    have hone := List.inj_on_of_nodup_map hdistinct (htag earlier hearlier v hv id hvid)
      (htag later hlater w hw id hwid) rfl
    exact Option.some.inj (congrArg Prod.snd hone)

/-- A view of a pool has the tag of the view that it was copied from, which is gone by then. The third id is the pool's,
as the second one was spent on a pool that cannot be viewed. -/
theorem copy_traced_to_pool :
    let s := Session.new .lightweight (fun m _ => m.reader) AddressSpace.placePool AddressSpace.placeChunk
    let earlier := [.borrow "v" (.unsigned .w8) true 0 4, .make "x" .block 1, .createPool "p" 16,
      .overPool "x" (.unsigned .w8) "p"]
    let actions := earlier ++ [.share "x" "y", .dropView "x"]
    s.handedOut actions = [⟨1⟩, ⟨2⟩, ⟨3⟩] ∧
      ∃ v w, (s.run earlier).views.get? "x" = some v ∧ (s.run actions).views.get? "y" = some w ∧
        v.view.owner = .tool ⟨3⟩ ∧ v.origin = w.origin := by
  intro s earlier actions
  obtain ⟨-, -, -, -, hone⟩ := ids_distinct_until_wrap .lightweight (fun m _ => m.reader) AddressSpace.placePool
    AddressSpace.placeChunk actions
  have hids : s.handedOut actions = [⟨1⟩, ⟨2⟩, ⟨3⟩] := by decide
  have hshort : (s.handedOut actions).length ≤ UInt32.size := by
    rw [hids]
    decide
  refine ⟨hids, _, _, rfl, rfl, rfl, ?_⟩
  have hx : (s.run earlier).views.get? "x" = some _ := rfl
  have hy : (s.run actions).views.get? "y" = some _ := rfl
  exact hone hshort earlier actions (List.prefix_append _ _) (List.prefix_refl _) _ (Names.mem_values_of_get? hx) _
    (Names.mem_values_of_get? hy) ⟨3⟩ rfl rfl

section repeated

variable (s : Session) (t : ElementType) (base count : Nat)

theorem length_handedOut_replicate (name : String) (n : Nat) :
    (s.handedOut (List.replicate n (.borrow name t true base count))).length = n := by
  induction n generalizing s with
  | zero => rfl
  | succ n ih => exact congrArg (· + 1) (ih (s.borrow name t true base count).2)

theorem run_replicate_borrow (name : String) (n : Nat) :
    let after := s.run (List.replicate (n + 1) (.borrow name t true base count))
    after.views.get? name =
        some ⟨t, .borrow t (.tool ⟨s.process.pools.nextId.value + UInt32.ofNat n⟩) base count⟩ ∧
      ∀ other, other ≠ name → after.views.get? other = s.views.get? other := by
  induction n generalizing s with
  | zero =>
      refine ⟨?_, fun other hother => Names.get?_put_of_ne hother⟩
      change Names.get? (Names.put _ _ _) _ = _
      rw [Names.get?_put_self]
      change _ = some (TypedView.mk t (.borrow t (.tool ⟨s.process.pools.nextId.value + 0⟩) base count))
      rw [UInt32.add_zero]
  | succ n ih =>
      obtain ⟨hview, hothers⟩ := ih (s.borrow name t true base count).2
      refine ⟨?_, fun other hother => (hothers other hother).trans (Names.get?_put_of_ne hother)⟩
      rw [← PoolId.value_next_add]
      exact hview

theorem views_after_round {n : Nat} (h : n = UInt32.size) (other : Nat) :
    let actions := .borrow "v" t true base count :: List.replicate n (.borrow "w" t true other count)
    (∀ id, id ∈ s.handedOut actions) ∧ ¬(s.handedOut actions).Nodup ∧
      (s.run actions).views.get? "v" = some ⟨t, .borrow t (.tool s.process.pools.nextId) base count⟩ ∧
      (s.run actions).views.get? "w" = some ⟨t, .borrow t (.tool s.process.pools.nextId) other count⟩ := by
  intro actions
  let first := (s.borrow "v" t true base count).2
  have hlength : (s.handedOut actions).length = n + 1 :=
    congrArg (· + 1) (first.length_handedOut_replicate t other count "w" n)
  refine ⟨fun id => mem_handedOut_of_le (by omega) id, fun hdistinct => ?_, ?_⟩
  · have hle := nodup_handedOut_iff.mp hdistinct
    omega
  · cases n with
    | zero => cases h
    | succ n =>
        obtain ⟨hview, hothers⟩ := first.run_replicate_borrow t other count "w" n
        have hround : UInt32.ofNat (n + 1) = 0 := by
          rw [h]
          rfl
        have hvalue : first.process.pools.nextId.value + UInt32.ofNat n = s.process.pools.nextId.value := by
          change s.process.pools.nextId.next.value + UInt32.ofNat n = _
          rw [PoolId.value_next_add, hround, UInt32.add_zero]
        refine ⟨(hothers "v" (by decide)).trans (Names.get?_put_self _ _ _), hview.trans ?_⟩
        rw [hvalue]

end repeated

/-- When the counter has come round, zero has been handed out and two views of different memory have the same tag. -/
theorem id_handed_out_again :
    let s := Session.new .lightweight (fun m _ => m.reader) AddressSpace.placePool AddressSpace.placeChunk
    let actions := .borrow "v" (.unsigned .w8) true 0 4 ::
      List.replicate UInt32.size (.borrow "w" (.unsigned .w8) true 8 4)
    ⟨0⟩ ∈ s.handedOut actions ∧ ¬(s.handedOut actions).Nodup ∧
      (s.run actions).views.get? "v" = some ⟨.unsigned .w8, .borrow _ (.tool .first) 0 4⟩ ∧
      (s.run actions).views.get? "w" = some ⟨.unsigned .w8, .borrow _ (.tool .first) 8 4⟩ := by
  intro s actions
  obtain ⟨hall, hround⟩ := s.views_after_round (.unsigned .w8) 0 4 rfl 8
  exact ⟨hall ⟨0⟩, hround⟩

end Session

end CallCapture
