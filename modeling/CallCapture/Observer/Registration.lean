import CallCapture.Observer.Lemmas

namespace CallCapture

/-- A range alone, or a region together with the pool behind it. -/
inductive Registration
  | nothing
  | range (phase : Phase) (base size : Nat)
  | region (phase : Phase) (r : Region)

/-- The pool that has to outlive a registration of the region. Of an empty region nothing will be captured. -/
def Region.pool? (r : Region) : Option Pool := if r.byteLength = 0 then none else r.backing

theorem Region.pool?_eq_some {r : Region} {p : Pool} :
    r.pool? = some p ↔ r.byteLength ≠ 0 ∧ r.backing = some p := by
  rw [pool?]
  split
  · exact ⟨nofun, fun h => absurd ‹_› h.1⟩
  · exact ⟨fun h => ⟨‹_›, h⟩, And.right⟩

namespace Registration

def ranges : Registration → List (Nat × Nat)
  | nothing => []
  | range _ base size => [(base, size)]
  | region _ r => [(r.base, r.byteLength)]

def regions : Registration → List Region
  | nothing | range .. => []
  | region _ r => [r]

def pools (x : Registration) : List Pool := x.regions.filterMap Region.pool?

def events : Registration → List Event
  | nothing => []
  | range phase base size => if size = 0 then [] else [.rangeRegistered base size phase]
  | region phase r => if r.byteLength = 0 then [] else [.rangeRegistered r.base r.byteLength phase]

theorem pools_region (phase : Phase) (r : Region) : (region phase r).pools = r.pool?.toList := by
  cases h : r.pool? <;> simp [pools, regions, h]

theorem mem_ranges_of_mem_regions {x : Registration} {r : Region} (h : r ∈ x.regions) :
    (r.base, r.byteLength) ∈ x.ranges := by
  cases x with
  | nothing | range => cases h
  | region phase q =>
      obtain rfl := List.mem_singleton.mp h
      exact List.mem_cons_self

theorem mem_regions_elim {α : Type} {x : Option α} {f : α → Registration} {r : Region}
    (h : r ∈ (x.elim .nothing f).regions) : ∃ a, x = some a ∧ r ∈ (f a).regions := by
  cases x with
  | none => cases h
  | some a => exact ⟨a, rfl, h⟩

theorem mem_regions_ite {c : Prop} [Decidable c] {x : Registration} {r : Region}
    (h : r ∈ (if c then x else .nothing).regions) : c ∧ r ∈ x.regions := by
  split at h
  · exact ⟨‹_›, h⟩
  · cases h

end Registration

namespace Observer

def enter (o : Observer) : Registration → Observer
  | .nothing => o
  | .range phase base size => o.register phase base size
  | .region phase r => o.registerRegion phase r

/-- An observer but for what is pending, retained and logged. -/
def settled (o : Observer) : Observer := { o with pending := .empty, retained := [], log := [] }

/-- `p` is `o` after it logged some events and then entered `x`. -/
def Enters (o : Observer) (events : List Event) (x : Registration) (p : Observer) : Prop :=
  p = (o.note events).enter x

variable {t : ElementType} {o p : Observer} {events : List Event} {x : Registration}

theorem note_nil (o : Observer) : o.note [] = o := by
  simp only [note, List.append_nil]

theorem Enters.refl (o : Observer) : o.Enters [] .nothing o := (note_nil o).symm

theorem enters_note (o : Observer) (events : List Event) : o.Enters events .nothing (o.note events) := rfl

theorem enters_enter (o : Observer) (x : Registration) : o.Enters [] x (o.enter x) := by
  rw [Enters, note_nil]

section enter

theorem pending_enter (o : Observer) (x : Registration) : (o.enter x).pending = o.pending.insertAll x.ranges := by
  cases x with
  | nothing => rfl
  | range phase base size =>
      by_cases h : size = 0
      · rw [enter, register, if_pos h, h]
        exact (Coverage.insert_zero o.pending base).symm
      · rw [enter, register, if_neg h]
        rfl
  | region phase r =>
      by_cases h : r.byteLength = 0
      · rw [enter, registerRegion, if_pos h, Registration.ranges, h]
        exact (Coverage.insert_zero o.pending r.base).symm
      · rw [enter, registerRegion, if_neg h, register, if_neg h]
        rfl

theorem retained_enter (o : Observer) (x : Registration) : (o.enter x).retained = o.retained ++ x.pools := by
  cases x with
  | nothing => exact (List.append_nil _).symm
  | range phase base size =>
      have hnil : (o.register phase base size).retained = o.retained := by
        rw [register]
        split <;> rfl
      exact hnil.trans (List.append_nil _).symm
  | region phase r =>
      rw [Registration.pools_region]
      by_cases h : r.byteLength = 0
      · rw [enter, registerRegion, if_pos h, Region.pool?, if_pos h]
        exact (List.append_nil _).symm
      · rw [enter, registerRegion, if_neg h, register, if_neg h, Region.pool?, if_neg h]
        rfl

theorem log_enter (o : Observer) (x : Registration) : (o.enter x).log = o.log ++ x.events := by
  cases x with
  | nothing => exact (List.append_nil _).symm
  | range phase base size =>
      rw [enter, register, Registration.events]
      split
      · exact (List.append_nil _).symm
      · rfl
  | region phase r =>
      rw [enter, registerRegion, register, Registration.events]
      split
      · exact (List.append_nil _).symm
      · rfl

theorem settled_enter (o : Observer) (x : Registration) : (o.enter x).settled = o.settled := by
  cases x with
  | nothing => rfl
  | range phase base size =>
      rw [enter, register]
      split <;> rfl
  | region phase r =>
      rw [enter, registerRegion, register]
      split <;> rfl

end enter

theorem Enters.pending (h : o.Enters events x p) : p.pending = o.pending.insertAll x.ranges := by
  rw [h]
  exact pending_enter (o.note events) x

theorem Enters.retained (h : o.Enters events x p) : p.retained = o.retained ++ x.pools := by
  rw [h]
  exact retained_enter (o.note events) x

theorem Enters.log (h : o.Enters events x p) : p.log = o.log ++ (events ++ x.events) := by
  rw [h, log_enter, ← List.append_assoc]
  rfl

theorem Enters.settled (h : o.Enters events x p) : p.settled = o.settled := by
  rw [h]
  exact settled_enter (o.note events) x

theorem Enters.bare (h : o.Enters events x p) : p.bare = o.bare := by
  have hs := congrArg Observer.bare h.settled
  exact hs

theorem Enters.record (h : o.Enters events x p) : p.record = o.record := by
  have hs := congrArg Observer.record h.settled
  exact hs

theorem Enters.attachments (h : o.Enters events x p) : p.attachments = o.attachments := by
  have hs := congrArg Observer.attachments h.settled
  exact hs

section operations

def elementRegistration (o : Observer) (phase : Phase) (v : View t) (index : Nat) : Registration :=
  if o.observes v.owner ∧ index < v.count then .range phase (v.base + index * t.size) t.size else .nothing

def stringRegistration (m : Memory) (address : Nat) : Registration :=
  if address = 0 then .nothing
  else (m.distanceToZero address (addressTop + 1 - address)).elim .nothing fun length =>
    .range .read address (length + 1)

theorem ranges_elementRegistration (o : Observer) (phase : Phase) (v : View t) (index : Nat) :
    (o.elementRegistration phase v index).ranges = o.elementRegistrations v index := by
  simp only [elementRegistration, elementRegistrations]
  split <;> rfl

theorem ranges_stringRegistration (m : Memory) (address : Nat) :
    (stringRegistration m address).ranges = stringRegistrations m address := by
  simp only [stringRegistration, stringRegistrations]
  split
  · rfl
  · cases m.distanceToZero address (addressTop + 1 - address) <;> rfl

theorem regions_elementRegistration (o : Observer) (phase : Phase) (v : View t) (index : Nat) :
    (o.elementRegistration phase v index).regions = [] := by
  rw [elementRegistration]
  split <;> rfl

theorem regions_stringRegistration (m : Memory) (address : Nat) : (stringRegistration m address).regions = [] := by
  rw [stringRegistration]
  split
  · rfl
  · cases m.distanceToZero address (addressTop + 1 - address) <;> rfl

theorem enters_registerObserved (o : Observer) (phase : Phase) (r : Region) :
    o.Enters [] (if o.observes r.owner then .region phase r else .nothing) (o.registerObserved phase r) := by
  by_cases h : o.observes r.owner = true
  · rw [registerObserved, if_pos h, if_pos h]
    exact enters_enter o (.region phase r)
  · rw [registerObserved, if_neg h, if_neg h]
    exact Enters.refl o

theorem enters_readElement (o : Observer) (m : Memory) (v : View t) (index : Nat) :
    o.Enters [] (o.elementRegistration .read v index) (o.readElement m v index).2 := by
  rw [elementRegistration]
  rcases Nat.lt_or_ge index v.count with hi | hi
  · rw [readElement_of_lt hi]
    by_cases ho : o.observes v.owner = true
    · rw [if_pos ⟨ho, hi⟩, if_pos ho]
      exact enters_enter o (.range .read _ t.size)
    · rw [if_neg fun h => ho h.1, if_neg ho]
      exact Enters.refl o
  · rw [readElement_of_le hi, if_neg fun h => Nat.not_lt.mpr hi h.2]
    exact Enters.refl o

theorem enters_writeElement (o : Observer) (m : Memory) (v : View t) (index : Nat) (value : t.Value) :
    o.Enters [] (o.elementRegistration .write v index)
      ((o.writeElement m v index value).toOption.elim o Prod.fst) := by
  rw [elementRegistration]
  rcases Nat.lt_or_ge index v.count with hi | hi
  · rw [writeElement_of_lt hi]
    by_cases ho : o.observes v.owner = true
    · rw [if_pos ⟨ho, hi⟩, if_pos ho]
      exact enters_enter o (.range .write _ t.size)
    · rw [if_neg fun h => ho h.1, if_neg ho]
      exact Enters.refl o
  · rw [writeElement_of_le hi, if_neg fun h => Nat.not_lt.mpr hi h.2]
    exact Enters.refl o

theorem enters_readString (o : Observer) (m : Memory) (address : Nat) :
    o.Enters (if address = 0 then [.nullString o.commandName] else []) (stringRegistration m address)
      (o.readString m address).2 := by
  simp only [readString, stringRegistration]
  split
  · exact enters_note o _
  · cases m.distanceToZero address (addressTop + 1 - address) with
    | none => exact Enters.refl o
    | some length => exact enters_enter o (.range .read address (length + 1))

theorem enters_readStringView (o : Observer) (m : Memory) (v : View characterType) :
    o.Enters [] (.region .read v.region) (o.readStringView m v).2 := enters_enter o (.region .read v.region)

end operations

end Observer

end CallCapture
