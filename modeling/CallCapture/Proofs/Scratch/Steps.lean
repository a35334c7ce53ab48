import CallCapture.Arena.Lemmas
import CallCapture.Arena.Scratch
import CallCapture.Element.Lemmas
import CallCapture.Memory.Lemmas

namespace CallCapture

structure TypedArray where
  elem : ElementType
  values : List elem.Value

def ScratchAction.array? : ScratchAction → Option TypedArray
  | .alloc _ t value => some ⟨t, [t.ofLiteral value]⟩
  | .allocZeroed _ t count => some ⟨t, List.replicate count t.zero⟩
  | .allocCopy t values => some ⟨t, values.map t.ofLiteral⟩
  | _ => none

namespace Scratch

theorem length_encodeAll (t : ElementType) (values : List t.Value) :
    (encodeAll t values).length = values.length * t.size :=
  ElementType.length_flatMap_of_forall values fun v _ => t.length_encode v

theorem encodeAll_replicate_zero (t : ElementType) (count : Nat) :
    encodeAll t (List.replicate count t.zero) = List.replicate (count * t.size) 0 := by
  rw [encodeAll, List.flatMap_replicate, t.encode_zero, List.flatten_replicate_replicate]

inductive Allocates (s : Scratch) (x : TypedArray) : Except ArenaError Handle → Scratch → Prop
  | allocated {l : Layout} {address : Nat} {b : Arena} {m : Memory}
      (layout : Layout.array? x.elem x.values.length = some l) (reserved : s.arena.Reserves l (.ok address) b)
      (stored : s.storage.Stores address (encodeAll x.elem x.values) m) :
      Allocates s x (.ok ⟨x.elem, address, x.values.length⟩) ⟨b, m, s.handles ++ [⟨x.elem, address, x.values.length⟩]⟩
  | refused {l : Layout} {e : ArenaError} {b : Arena} (layout : Layout.array? x.elem x.values.length = some l)
      (reserved : s.arena.Reserves l (.error e) b) : Allocates s x (.error e) { s with arena := b }
  | overflows (layout : Layout.array? x.elem x.values.length = none) :
      Allocates s x (.error (.layoutOverflow x.values.length x.elem.size)) s

theorem allocates_allocWith (s : Scratch) (x : TypedArray) (init : Nat → Memory → Memory)
    (hinit : ∀ address, s.storage.Stores address (encodeAll x.elem x.values) (init address s.storage)) :
    s.Allocates x (s.allocWith x.elem x.values.length init).1 (s.allocWith x.elem x.values.length init).2 := by
  rw [allocWith, Arena.reserveArray]
  cases hlayout : Layout.array? x.elem x.values.length with
  | none => exact .overflows hlayout
  | some l =>
      dsimp only
      have hr := s.arena.reserves_reserve l
      cases hresult : s.arena.reserve l with
      | mk result b =>
          rw [hresult] at hr
          cases result with
          | error e => exact .refused hlayout hr
          | ok address => exact .allocated hlayout hr (hinit address)

theorem allocates_allocCopy (s : Scratch) (t : ElementType) (values : List t.Value) :
    s.Allocates ⟨t, values⟩ (s.allocCopy t values).1 (s.allocCopy t values).2 :=
  allocates_allocWith s ⟨t, values⟩ _ fun address => Memory.stores_write s.storage address _

theorem allocates_allocZeroed (s : Scratch) (t : ElementType) (count : Nat) :
    s.Allocates ⟨t, List.replicate count t.zero⟩ (s.allocZeroed t count).1 (s.allocZeroed t count).2 := by
  have h := allocates_allocWith s ⟨t, List.replicate count t.zero⟩
    fun address m => m.overlay address (count * t.size) .zero
  rw [encodeAll_replicate_zero, List.length_replicate] at h
  exact h fun address => Memory.stores_overlay_zero s.storage address _

theorem step_allocates (s : Scratch) {a : ScratchAction} {x : TypedArray} (h : a.array? = some x) :
    ∃ guarded result t, s.Allocates x result t ∧ s.step a = answerAlloc guarded (result, t) := by
  cases a with
  | alloc guarded t value =>
      cases h
      exact ⟨guarded, _, _, allocates_allocCopy s t [t.ofLiteral value], rfl⟩
  | allocZeroed guarded t count =>
      cases h
      exact ⟨guarded, _, _, allocates_allocZeroed s t count, rfl⟩
  | allocCopy t values =>
      cases h
      exact ⟨false, _, _, allocates_allocCopy s t (values.map t.ofLiteral), rfl⟩
  | _ => cases h

theorem state_step_reserve (s : Scratch) (l : Layout) :
    (s.step (.reserve l)).2 = { s with arena := (s.arena.reserve l).2 } := by
  rw [step]
  cases s.arena.reserve l with
  | mk result b => cases result <;> rfl

section handle

variable {s : Scratch} {k : Nat} {h : Handle}

theorem step_contents (hk : s.handles[k]? = some h) : s.step (.contents k) = (.elements (s.literals h), s) := by
  simp only [step, hk]

theorem step_contents_of_none (hk : s.handles[k]? = none) : s.step (.contents k) = (.done, s) := by
  simp only [step, hk]

theorem state_step_contents (s : Scratch) (k : Nat) : (s.step (.contents k)).2 = s := by
  cases hk : s.handles[k]? with
  | none => rw [step_contents_of_none hk]
  | some h => rw [step_contents hk]

def stored (s : Scratch) (h : Handle) (index : Nat) (value : h.elem.Value) : Scratch :=
  { s with storage := s.storage.write (h.address + index * h.elem.size) (h.elem.encode value) }

theorem step_set_of_lt (hk : s.handles[k]? = some h) {index : Nat} (hi : index < h.count) (value : Literal) :
    s.step (.set k index value) =
      (.elements ((s.stored h index (h.elem.ofLiteral value)).literals h),
        s.stored h index (h.elem.ofLiteral value)) := by
  simp only [step, hk, set, if_pos hi, stored]

theorem step_set_of_le (hk : s.handles[k]? = some h) {index : Nat} (hi : h.count ≤ index) (value : Literal) :
    s.step (.set k index value) = (.fault (.scratchIndex h.count index), s) := by
  simp only [step, hk, set, if_neg (Nat.not_lt.mpr hi)]

theorem step_set_of_none (hk : s.handles[k]? = none) (index : Nat) (value : Literal) :
    s.step (.set k index value) = (.done, s) := by
  simp only [step, hk]

end handle

end Scratch

end CallCapture
