import CallCapture.Proofs.Session.Footprint
import CallCapture.Proofs.Session.Lifetimes
import CallCapture.Proofs.Views.Snapshot

namespace CallCapture

theorem Region.not_contains_iff {r : Region} {x : Nat} :
    ¬r.Contains x ↔ x < r.base ∨ r.base + r.byteLength ≤ x := by
  rw [Contains]
  omega

def Pool.region (p : Pool) : Region := ⟨p.base, p.size, .tool p.id, some p⟩

def Region.Disjoint (r q : Region) : Prop := ∀ x, r.Contains x → ¬q.Contains x

theorem Region.Disjoint.symm {r q : Region} (h : r.Disjoint q) : q.Disjoint r := fun x hq hr => h x hr hq

theorem Region.BackedBy.contains {r : Region} {made : List Pool} {p : Pool} {x : Nat} (h : r.BackedBy made)
    (hp : r.backing = some p) (hx : r.Contains x) : p.region.Contains x := by
  obtain ⟨-, hbase, hle, -⟩ := h p hp
  obtain ⟨hlow, hhigh⟩ := hx
  constructor
  · change p.base ≤ x
    omega
  · change x < p.base + p.size
    omega

theorem View.elements_congr {t : ElementType} {v : View t} {m n : Memory}
    (h : ∀ x, v.region.Contains x → n.byteAt x = m.byteAt x) : v.elements n = v.elements m := by
  refine List.map_congr_left fun i hi => ?_
  rw [element, element]
  congr 1
  exact Memory.read_congr fun x hlow hhigh => h x (contains_of_element (List.mem_range.mp hi) hlow hhigh)

namespace Session

/-- `P` holds of every action of the run in the state that it is done in. -/
def EveryStep (P : Session → Action → Prop) (s : Session) : List Action → Prop
  | [] => True
  | a :: rest => P s a ∧ (s.step a).2.EveryStep P rest

section everyStep

variable {P Q : Session → Action → Prop} {s : Session}

theorem everyStep_append {before after : List Action} :
    s.EveryStep P (before ++ after) ↔ s.EveryStep P before ∧ (s.run before).EveryStep P after := by
  induction before generalizing s with
  | nil => exact ⟨fun h => ⟨trivial, h⟩, And.right⟩
  | cons a rest ih =>
      change _ ∧ EveryStep P _ (rest ++ after) ↔ (_ ∧ EveryStep P _ rest) ∧ _
      rw [ih, and_assoc]
      rfl

theorem EveryStep.mono {actions : List Action} (h : s.EveryStep P actions) (hPQ : ∀ s a, P s a → Q s a) :
    s.EveryStep Q actions := by
  induction actions generalizing s with
  | nil => trivial
  | cons a rest ih => exact ⟨hPQ s a h.1, ih h.2⟩

end everyStep

/-- The byte at `x` belongs to a pool that is alive, or it is `taken`: memory of the application, or any other that no
pool is to be placed in. -/
def InUse (taken : Nat → Prop) (s : Session) (x : Nat) : Prop := taken x ∨ ∃ p ∈ s.alive, p.region.Contains x

def PlacedApart (taken : Nat → Prop) (s t : Session) : Prop := ∀ p ∈ s.fresh t, ∀ x, p.region.Contains x → ¬s.InUse taken x

def SoundlyPlaced (taken : Nat → Prop) : (s : Session) → List Action → Prop :=
  EveryStep fun s a => s.PlacedApart taken (s.step a).2

def written? (s : Session) : Action → Option Region
  | .set view _ _ | .writeElement view _ _ => (s.views.get? view).map fun v => v.view.region
  | .copyTo _ dst _ _ _ | .copy dst _ _ => (s.views.get? dst).map fun v => v.view.region
  | .poke address bytes => some ⟨address, bytes.length, .application, none⟩
  | _ => none

theorem exists_view_of_written? {s : Session} {a : Action} {r : Region} (h : s.written? a = some r) :
    r.backing = none ∨ ∃ v ∈ s.views.values, v.view.region = r := by
  cases a with
  | set view | writeElement view | copyTo _ view | copy view =>
      obtain ⟨v, hv, rfl⟩ := Option.map_eq_some_iff.mp h
      exact .inr ⟨v, Names.mem_values_of_get? hv, rfl⟩
  | poke address bytes =>
      cases h
      exact .inl rfl
  | _ => cases h

section frame

variable {s : Session} {a : Action} {x : Nat}

theorem Writes.written_or_fresh (h : s.Writes a x) :
    (∃ r, s.written? a = some r ∧ r.Contains x) ∨ ∃ p ∈ s.fresh (s.step a).2, p.region.Contains x := by
  cases h with
  | @element t v view index x value named unobserved inside low high =>
      exact .inl ⟨v.region, by rw [written?, named]; rfl, View.contains_of_element inside low high⟩
  | @copied t v w dst src name x filled named unobserved low high =>
      have hle : min v.count w.count * t.size ≤ w.byteLength := Nat.mul_le_mul_right t.size (Nat.min_le_right _ _)
      refine .inl ⟨w.region, by rw [written?, filled]; rfl, low, ?_⟩
      change x < w.base + w.byteLength
      omega
  | @cloned v pool src name x named viewed made low high =>
      refine .inr ⟨pool, ?_, low, high⟩
      rw [fresh_of_snoc made]
      exact List.mem_cons_self

theorem byteAt_step_set {view : String} {index : Nat} {value : Literal}
    (hwritten : ∀ r, s.written? (.set view index value) = some r → ¬r.Contains x) :
    (s.step (.set view index value)).2.process.memory.byteAt x = s.process.memory.byteAt x := by
  refine withView_cases (P := fun r => r.2.process.memory.byteAt x = _) rfl fun ⟨t, v⟩ hv => ?_
  dsimp only
  rcases Nat.lt_or_ge index v.count with hi | hi
  · rw [View.set_of_lt hi]
    apply Memory.byteAt_write_of_outside
    rw [ElementType.length_encode]
    have hin := v.element_le hi
    have hout : x < v.base ∨ v.base + v.byteLength ≤ x :=
      Region.not_contains_iff.mp (hwritten v.region (by rw [written?, hv]; rfl))
    omega
  · rw [View.set_of_le hi]

theorem byteAt_step_copyTo {view dst : String} {start count dstStart : Nat}
    (hwritten : ∀ r, s.written? (.copyTo view dst start count dstStart) = some r → ¬r.Contains x) :
    (s.step (.copyTo view dst start count dstStart)).2.process.memory.byteAt x = s.process.memory.byteAt x := by
  refine withViews_cases (P := fun r => r.2.process.memory.byteAt x = _) rfl fun t v w hv hw => ?_
  cases hcopy : v.copyTo w s.process.memory start count dstStart with
  | error f => rfl
  | ok n =>
      apply View.byteAt_copyTo hcopy
      obtain ⟨-, hin, -⟩ := View.copyTo_eq_ok.mp hcopy
      have hle := Nat.mul_le_mul_right t.size hin
      have hout : x < w.base ∨ w.base + w.count * t.size ≤ x :=
        Region.not_contains_iff.mp (hwritten w.region (by rw [written?, hw]; rfl))
      omega

theorem byteAt_clear_of_fresh {made : List Pool} {pool : Pool} {more : List Pool} (hmore : more = made ++ [pool])
    (hfresh : ∀ p ∈ more.drop made.length, ¬p.region.Contains x) (m : Memory) :
    (Process.clear m pool).byteAt x = m.byteAt x := by
  apply Process.byteAt_clear_of_outside
  rw [hmore, List.drop_left] at hfresh
  exact Region.not_contains_iff.mp (hfresh pool List.mem_cons_self)

theorem byteAt_make {name : String} {t : ElementType} {count : Nat}
    (hfresh : ∀ p ∈ s.fresh (s.make name t count).2, ¬p.region.Contains x) :
    (s.make name t count).2.process.memory.byteAt x = s.process.memory.byteAt x := by
  have hmakes := s.process.makes_make t count
  rw [make] at hfresh ⊢
  cases hmake : s.process.make t count with
  | mk result q =>
      rw [hmake] at hmakes hfresh
      cases hmakes with
      | refused | given_up => rfl
      | viewed _ _ _ made => exact byteAt_clear_of_fresh made hfresh s.process.memory

theorem byteAt_createPool {name : String} {size : Nat}
    (hfresh : ∀ p ∈ s.fresh (s.createPool name size).2, ¬p.region.Contains x) :
    (s.createPool name size).2.process.memory.byteAt x = s.process.memory.byteAt x := by
  rw [createPool] at hfresh ⊢
  rcases Nat.lt_or_ge maxBlockSize (size + (poolAlign - 1)) with hlarge | hsmall
  · rw [s.process.createPool_of_lt hlarge]
    rfl
  · obtain ⟨pool, pools, hcreate, -, hmade⟩ := s.process.createPool_of_le hsmall
    rw [hcreate] at hfresh ⊢
    exact byteAt_clear_of_fresh hmade hfresh s.process.memory

theorem byteAt_step (hwritten : ∀ r, s.written? a = some r → ¬r.Contains x)
    (hfresh : ∀ p ∈ s.fresh (s.step a).2, ¬p.region.Contains x) :
    (s.step a).2.process.memory.byteAt x = s.process.memory.byteAt x := by
  cases hobserver : a.byObserver with
  | true =>
      refine (s.step_changesOnly hobserver).byteAt x fun hwrites => ?_
      rcases hwrites.written_or_fresh with ⟨r, hr, hx⟩ | ⟨p, hp, hx⟩
      · exact hwritten r hr hx
      · exact hfresh p hp hx
  | false =>
      cases a with
      | set view index value => exact byteAt_step_set hwritten
      | copyTo view dst start count dstStart => exact byteAt_step_copyTo hwritten
      | make name t count => exact byteAt_make hfresh
      | createPool name size => exact byteAt_createPool hfresh
      | poke address bytes =>
          exact Memory.byteAt_write_of_outside _ (Region.not_contains_iff.mp (hwritten _ rfl))
      | borrow name t tool base count => cases tool <;> rfl
      | overPool name t pool =>
          rw [step, overPool]
          cases s.pools.get? pool with
          | none => rfl
          | some pool =>
              dsimp only
              cases View.ofPool t pool <;> rfl
      | share view | describe view | elements view =>
          exact withView_cases (P := fun r => r.2.process.memory.byteAt x = _) rfl fun v _ => rfl
      | address view index =>
          refine withView_cases (P := fun r => r.2.process.memory.byteAt x = _) rfl fun v _ => ?_
          cases v.view.elementAddress index <;> rfl
      | get view index =>
          refine withView_cases (P := fun r => r.2.process.memory.byteAt x = _) rfl fun v _ => ?_
          cases v.view.get s.process.memory index <;> rfl
      | dropView | dropPool | peek | sparsePoke | sparsePeek | sparseFill => rfl
      | _ => cases hobserver

end frame

def EveryWrite (P : Session → Region → Prop) : Session → List Action → Prop :=
  EveryStep fun s a => ∀ r, s.written? a = some r → P s r

/-- The byte at `x` is taken, or it has belonged to one pool from `s` to `t`. -/
def Lasts (taken : Nat → Prop) (s t : Session) (x : Nat) : Prop :=
  taken x ∨ ∃ p ∈ s.process.pools.made, p ∈ t.alive ∧ p.region.Contains x

section run

variable {taken : Nat → Prop} {s : Session} {actions : List Action} {x : Nat}

theorem Lasts.inUse (h : s.Lasts taken (s.run actions) x) (hs : s.Accounted) : s.InUse taken x := by
  rcases h with htaken | ⟨p, hmade, halive, hx⟩
  · exact .inl htaken
  · exact .inr ⟨p, alive_of_alive_run hs hmade halive, hx⟩

theorem byteAt_run (h : s.Accounted) (sound : s.SoundlyPlaced taken actions)
    (lasts : s.Lasts taken (s.run actions) x) (spared : s.EveryWrite (fun _ r => ¬r.Contains x) actions) :
    (s.run actions).process.memory.byteAt x = s.process.memory.byteAt x := by
  induction actions generalizing s with
  | nil => rfl
  | cons a rest ih =>
      obtain ⟨hsound, hrest⟩ := sound
      obtain ⟨hspared, hspares⟩ := spared
      -- a pool that is alive in the end is alive now, so no new pool is put over the byte
      have huse : s.InUse taken x := lasts.inUse h
      have hstep : (s.step a).2.process.memory.byteAt x = s.process.memory.byteAt x :=
        byteAt_step hspared fun p hp hx => hsound p hp x hx huse
      have hlasts : (s.step a).2.Lasts taken ((s.step a).2.run rest) x := by
        rcases lasts with htaken | ⟨p, hmade, hp⟩
        · exact .inl htaken
        · exact .inr ⟨p, (s.step_grounds a).made.kept.subset hmade, hp⟩
      exact (ih (h.step a) hrest hlasts hspares).trans hstep

end run

end Session

end CallCapture
