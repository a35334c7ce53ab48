import CallCapture.Names.Lemmas
import CallCapture.Process.Lemmas
import CallCapture.Session.Lemmas

namespace CallCapture

/-- Whether the action may bring or take away a view, a name of a pool, or an id. -/
def Action.rearranges : Action → Bool
  | .borrow .. | .make .. | .overPool .. | .share .. | .dropView _ | .createPool .. | .dropPool _ | .copy ..
  | .cloneView .. | .registerForeign .. => true
  | _ => false

namespace Session

/-- All pools that are held by a view or a name were made, and no view reaches out of its pool. -/
structure Grounded (s : Session) : Prop where
  views : ∀ v ∈ s.views.values, v.view.region.BackedBy s.process.pools.made
  pools : ∀ p ∈ s.pools.values, p ∈ s.process.pools.made

theorem grounded_new (config : ObserverConfig) (readerOf : Memory → Memory → Reader) (placement : PoolPlacement)
    (source : ChunkSource) : (Session.new config readerOf placement source).Grounded := ⟨nofun, nofun⟩

structure Grounds (s t : Session) : Prop where
  made : Pools.Grows s.process.pools.made t.process.pools.made
  grounded : s.Grounded → t.Grounded

def fresh (s t : Session) : List Pool := t.process.pools.made.drop s.process.pools.made.length

theorem fresh_of_snoc {s t : Session} {pool : Pool} (h : t.process.pools.made = s.process.pools.made ++ [pool]) :
    s.fresh t = [pool] := by
  rw [fresh, h, List.drop_left]

structure Undisturbed (s t : Session) : Prop where
  views : t.views = s.views
  names : t.pools = s.pools
  pools : t.process.pools = s.process.pools

section undisturbed

variable {s : Session} {name other : String}

theorem undisturbed_withView {act : TypedView → Answer × Session} (h : ∀ v, s.Undisturbed (act v).2) :
    s.Undisturbed (s.withView name act).2 :=
  withView_cases (P := fun r => s.Undisturbed r.2) ⟨rfl, rfl, rfl⟩ fun v _ => h v

theorem undisturbed_withViews {act : (t : ElementType) → View t → View t → Answer × Session}
    (h : ∀ t v w, s.Undisturbed (act t v w).2) : s.Undisturbed (s.withViews name other act).2 :=
  withViews_cases (P := fun r => s.Undisturbed r.2) ⟨rfl, rfl, rfl⟩ fun t v w _ _ => h t v w

theorem undisturbed_step (s : Session) {a : Action} (h : a.rearranges = false) : s.Undisturbed (s.step a).2 := by
  cases a with
  | borrow | make | overPool | share | dropView | createPool | dropPool | copy | cloneView | registerForeign => cases h
  | capturePhase phase =>
      rw [state_step_capturePhase]
      exact ⟨rfl, rfl, rfl⟩
  | captureInto =>
      rw [state_step_captureInto]
      exact ⟨rfl, rfl, rfl⟩
  | describe view | elements view => exact undisturbed_withView fun v => ⟨rfl, rfl, rfl⟩
  | registerView phase view => exact undisturbed_withView fun v => ⟨rfl, rfl, rfl⟩
  | address view index =>
      refine undisturbed_withView fun v => ?_
      cases v.view.elementAddress index <;> exact ⟨rfl, rfl, rfl⟩
  | get view index =>
      refine undisturbed_withView fun v => ?_
      cases v.view.get s.process.memory index <;> exact ⟨rfl, rfl, rfl⟩
  | set view index value =>
      refine undisturbed_withView fun v => ?_
      cases v.view.set s.process.memory index (v.elem.ofLiteral value) <;> exact ⟨rfl, rfl, rfl⟩
  | copyTo view dst start count dstStart =>
      refine undisturbed_withViews fun t v w => ?_
      cases v.copyTo w s.process.memory start count dstStart <;> exact ⟨rfl, rfl, rfl⟩
  | readElement view index =>
      refine undisturbed_withView fun v => ?_
      rcases s.observer.readElement s.process.memory v.view index with ⟨f | value, o⟩ <;> exact ⟨rfl, rfl, rfl⟩
  | writeElement view index value =>
      refine undisturbed_withView fun v => ?_
      cases s.observer.writeElement s.process.memory v.view index (v.elem.ofLiteral value) <;> exact ⟨rfl, rfl, rfl⟩
  | readString address =>
      rw [step]
      rcases s.observer.readString s.process.memory address with ⟨e | text, o⟩ <;> exact ⟨rfl, rfl, rfl⟩
  | readStringView view =>
      refine undisturbed_withView fun v => ?_
      cases v.at? characterType <;> exact ⟨rfl, rfl, rfl⟩
  | poke | peek | sparsePoke | sparsePeek | sparseFill | setName | setError | metadata | register | record | addExtra
    | extras | encodeExtras | scratch => exact ⟨rfl, rfl, rfl⟩

end undisturbed

/-- From `s` to `t` no pool was unmade. All views and names of `t` were there in `s` or have a pool that is new, a view
perhaps one that was under a name. -/
structure Inherits (s t : Session) : Prop where
  made : Pools.Grows s.process.pools.made t.process.pools.made
  views : ∀ v ∈ t.views.values, v ∈ s.views.values ∨ v.view.region.BackedBy (s.pools.values ++ s.fresh t)
  pools : ∀ p ∈ t.pools.values, p ∈ s.pools.values ∨ p ∈ s.fresh t

namespace Inherits

variable {s t : Session}

theorem of_eq (made : t.process.pools.made = s.process.pools.made) (views : t.views = s.views)
    (pools : t.pools = s.pools) : s.Inherits t where
  made := .of_eq made
  views _ hv := .inl (views ▸ hv)
  pools _ hp := .inl (pools ▸ hp)

theorem of_undisturbed (h : s.Undisturbed t) : s.Inherits t := of_eq (congrArg Pools.made h.pools) h.views h.names

theorem refl (s : Session) : s.Inherits s := of_eq rfl rfl rfl

theorem of_view {name : String} {v : TypedView} (made : Pools.Grows s.process.pools.made t.process.pools.made)
    (views : t.views = s.views.put name v) (pools : t.pools = s.pools)
    (backed : v ∈ s.views.values ∨ v.view.region.BackedBy (s.pools.values ++ s.fresh t)) : s.Inherits t where
  made := made
  views w hw := by
    rw [views] at hw
    rcases Names.mem_values_put hw with rfl | hold
    · exact backed
    · exact .inl hold
  pools _ hp := .inl (pools ▸ hp)

theorem grounds (h : s.Inherits t) : s.Grounds t where
  made := h.made
  grounded hs :=
    { views := fun v hv => by
        rcases h.views v hv with hold | hbacked
        · exact (hs.views v hold).mono h.made.kept.subset
        · refine hbacked.mono (List.append_subset.mpr ⟨fun p hp => ?_, List.drop_subset _ _⟩)
          exact h.made.kept.subset (hs.pools p hp)
      pools := fun p hp => (h.pools p hp).elim (fun hold => h.made.kept.subset (hs.pools p hold)) List.mem_of_mem_drop }

end Inherits

theorem inherits_borrow (s : Session) (name : String) (t : ElementType) (tool : Bool) (base count : Nat) :
    s.Inherits (s.borrow name t tool base count).2 := by
  cases tool with
  | false => exact .of_view (.refl _) rfl rfl (.inr (Region.backedBy_of_none rfl _))
  | true => exact .of_view (.refl _) rfl rfl (.inr (Region.backedBy_of_none rfl _))

theorem inherits_make (s : Session) (name : String) (t : ElementType) (count : Nat) :
    s.Inherits (s.make name t count).2 := by
  have hgrows := s.process.grows_make t count
  rw [make]
  cases hmake : s.process.make t count with
  | mk made p =>
      rw [hmake] at hgrows
      cases made with
      | error f => exact ⟨hgrows, fun _ hv => .inl hv, fun _ hp => .inl hp⟩
      | ok v =>
          refine .of_view hgrows rfl rfl (.inr ?_)
          exact (Process.backedBy_of_make hmake).mono (List.subset_append_right _ _)

theorem inherits_overPool (s : Session) (name : String) (t : ElementType) (pool : String) :
    s.Inherits (s.overPool name t pool).2 := by
  rw [overPool]
  cases hpool : s.pools.get? pool with
  | none => exact .refl s
  | some pool =>
      dsimp only
      cases hview : View.ofPool t pool with
      | error f => exact .refl s
      | ok v =>
          refine .of_view (.refl _) rfl rfl (.inr ?_)
          exact View.backedBy_of_ofPool hview (List.mem_append_left _ (Names.mem_values_of_get? hpool))

theorem inherits_createPool (s : Session) (name : String) (size : Nat) : s.Inherits (s.createPool name size).2 := by
  rw [createPool]
  rcases Nat.lt_or_ge maxBlockSize (size + (poolAlign - 1)) with hlarge | hsmall
  · rw [s.process.createPool_of_lt hlarge]
    exact .of_eq rfl rfl rfl
  · obtain ⟨pool, pools, hcreate, hserial, hmade⟩ := s.process.createPool_of_le hsmall
    rw [hcreate]
    refine ⟨.snoc hserial hmade, fun _ hv => .inl hv, fun q hq => ?_⟩
    rcases Names.mem_values_put hq with rfl | hold
    · refine .inr ?_
      change q ∈ pools.made.drop s.process.pools.made.length
      rw [hmade, List.drop_left]
      exact List.mem_cons_self
    · exact .inl hold

theorem inherits_copy {t : ElementType} (s : Session) {dst : View t} (src : View t) (name : String)
    (hdst : ⟨t, dst⟩ ∈ s.views.values) : s.Inherits (s.copy dst src name).2 := by
  rw [copy_eq]
  exact .of_view (.refl _) rfl rfl (.inl hdst)

theorem inherits_cloneView {t : ElementType} (s : Session) (src : View t) (name : String) :
    s.Inherits (s.cloneView src name).2 := by
  have hgrows := s.process.grows_make t src.count
  cases hmake : s.process.make t src.count with
  | mk result q =>
      rw [hmake] at hgrows
      cases result with
      | error f =>
          rw [cloneView_of_error hmake]
          exact ⟨hgrows, fun _ hv => .inl hv, fun _ hp => .inl hp⟩
      | ok v =>
          have hbacked := Process.backedBy_of_make hmake
          rw [cloneView_of_ok hmake]
          exact .of_view hgrows rfl rfl (.inr (hbacked.mono (List.subset_append_right _ _)))

theorem inherits_withView {s : Session} {name : String} {act : TypedView → Answer × Session}
    (h : ∀ v ∈ s.views.values, s.Inherits (act v).2) : s.Inherits (s.withView name act).2 :=
  withView_cases (P := fun r => s.Inherits r.2) (.refl s) fun v hv => h v (Names.mem_values_of_get? hv)

theorem inherits_withViews {s : Session} {name other : String}
    {act : (t : ElementType) → View t → View t → Answer × Session}
    (h : ∀ t v w, ⟨t, v⟩ ∈ s.views.values → s.Inherits (act t v w).2) : s.Inherits (s.withViews name other act).2 :=
  withViews_cases (P := fun r => s.Inherits r.2) (.refl s) fun t v w hv _ => h t v w (Names.mem_values_of_get? hv)

theorem step_inherits (s : Session) (a : Action) : s.Inherits (s.step a).2 := by
  cases a with
  | borrow name t tool base count => exact inherits_borrow s name t tool base count
  | make name t count => exact inherits_make s name t count
  | overPool name t pool => exact inherits_overPool s name t pool
  | createPool name size => exact inherits_createPool s name size
  | share view name =>
      exact inherits_withView fun v hv => .of_view (.refl _) rfl rfl (.inl hv)
  | dropView view =>
      exact ⟨.refl _, fun _ hv => .inl (Names.mem_values_of_mem_erase hv), fun _ hp => .inl hp⟩
  | dropPool pool =>
      exact ⟨.refl _, fun _ hv => .inl hv, fun _ hp => .inl (Names.mem_values_of_mem_erase hp)⟩
  | copy dst src name => exact inherits_withViews fun t v w hv => inherits_copy s w name hv
  | cloneView src name => exact inherits_withView fun v _ => inherits_cloneView s v.view name
  | registerForeign phase base length tool => cases tool <;> exact .of_eq rfl rfl rfl
  | _ => exact .of_undisturbed (s.undisturbed_step rfl)

theorem step_grounds (s : Session) (a : Action) : s.Grounds (s.step a).2 := (s.step_inherits a).grounds

theorem run_grounds (s : Session) (actions : List Action) : s.Grounds (s.run actions) := by
  induction actions generalizing s with
  | nil => exact ⟨.refl _, id⟩
  | cons a rest ih =>
      have hstep := s.step_grounds a
      have hrest := ih (s.step a).2
      exact ⟨hstep.made.trans hrest.made, hrest.grounded ∘ hstep.grounded⟩

end Session

end CallCapture
