import CallCapture.Proofs.Scratch.Steps

namespace CallCapture

/-- From `a` to `b` nothing changed but what the allocator counts. -/
structure Arena.Holds (a b : Arena) : Prop where
  chunks : b.chunks = a.chunks
  config : b.config = a.config
  source : b.source = a.source

namespace Arena

variable {a b : Arena}

theorem Holds.refl (a : Arena) : a.Holds a := ⟨rfl, rfl, rfl⟩

theorem Holds.used (h : a.Holds b) : b.used = a.used := by rw [Arena.used, Arena.used, h.chunks]

theorem Holds.capacity (h : a.Holds b) : b.capacity = a.capacity := by rw [Arena.capacity, Arena.capacity, h.chunks]

theorem Holds.chunkCount (h : a.Holds b) : b.chunkCount = a.chunkCount := by
  rw [Arena.chunkCount, Arena.chunkCount, h.chunks]

theorem Reserves.holds_of_error {l : Layout} {e : ArenaError} (h : a.Reserves l (.error e) b) : a.Holds b := by
  cases h with
  | overflows | limited => exact .refl a
  | refused | misfits => exact ⟨rfl, rfl, rfl⟩

end Arena

def ScratchAnswer.isFailure : ScratchAnswer → Bool
  | .refused _ | .fault _ => true
  | _ => false

namespace Scratch

structure Untouched (s t : Scratch) : Prop where
  arena : s.arena.Holds t.arena
  storage : t.storage = s.storage
  handles : t.handles = s.handles

theorem Untouched.refl (s : Scratch) : s.Untouched s := ⟨.refl s.arena, rfl, rfl⟩

theorem Untouched.contents {s t : Scratch} (h : s.Untouched t) (k : Handle) : t.contents k = s.contents k := by
  have hget : t.get k = s.get k := by
    funext i
    rw [Scratch.get, Scratch.get, h.storage]
  rw [Scratch.contents, Scratch.contents, hget]

theorem Allocates.untouched_of_error {s t : Scratch} {x : TypedArray} {e : ArenaError}
    (h : s.Allocates x (.error e) t) : s.Untouched t := by
  cases h with
  | refused _ reserved => exact ⟨reserved.holds_of_error, rfl, rfl⟩
  | overflows => exact .refl s

theorem untouched_of_array? (s : Scratch) {a : ScratchAction} {x : TypedArray} (ha : a.array? = some x)
    (h : (s.step a).1.isFailure) : s.Untouched (s.step a).2 := by
  obtain ⟨guarded, result, t, hallocates, hstep⟩ := s.step_allocates ha
  rw [hstep] at h ⊢
  cases result with
  | ok handle => cases h
  | error e => exact hallocates.untouched_of_error

theorem step_untouched (s : Scratch) {a : ScratchAction} (h : (s.step a).1.isFailure) :
    s.Untouched (s.step a).2 := by
  cases a with
  | alloc | allocZeroed | allocCopy => exact s.untouched_of_array? rfl h
  | reserve l =>
      have hreserves := s.arena.reserves_reserve l
      rw [step] at h ⊢
      cases hresult : s.arena.reserve l with
      | mk result b =>
          rw [hresult] at h hreserves
          cases result with
          | ok address => cases h
          | error e => exact ⟨hreserves.holds_of_error, rfl, rfl⟩
  | set k index value =>
      cases hk : s.handles[k]? with
      | none =>
          rw [step_set_of_none hk] at h
          cases h
      | some handle =>
          rcases Nat.lt_or_ge index handle.count with hi | hi
          · rw [step_set_of_lt hk hi] at h
            cases h
          · rw [step_set_of_le hk hi]
            exact .refl s
  | contents k =>
      rw [state_step_contents]
      exact .refl s
  | allocUnit | config | reset => cases h

section guarded

variable (r : Except ArenaError Handle × Scratch)

theorem answerAlloc_eq_refused (e : ArenaError) : (answerAlloc true r).1 = .refused e ↔ r.1 = .error e := by
  rcases r with ⟨_ | _, s⟩ <;> simp [answerAlloc]

theorem answerAlloc_eq_fault (f : Fault) :
    (answerAlloc false r).1 = .fault f ↔ ∃ e, r.1 = .error e ∧ f = .scratch e := by
  rcases r with ⟨e | _, s⟩
  · constructor
    · intro h
      cases h
      exact ⟨e, rfl, rfl⟩
    · rintro ⟨_, hr, rfl⟩
      cases hr
      rfl
  · exact ⟨nofun, nofun⟩

end guarded

theorem allocWith_eq_error (s : Scratch) (t : ElementType) (count : Nat) (init : Nat → Memory → Memory)
    (e : ArenaError) : (s.allocWith t count init).1 = .error e ↔ (s.arena.reserveArray t count).1 = .error e := by
  rw [allocWith]
  rcases s.arena.reserveArray t count with ⟨_ | address, b⟩ <;> simp

end Scratch

/-- The guarded request for the layout of an unguarded one. -/
def ScratchAction.guardedForm? : ScratchAction → Option ScratchAction
  | .alloc false t value => some (.alloc true t value)
  | .allocZeroed false t count => some (.allocZeroed true t count)
  | .allocCopy t values => some (.allocZeroed true t values.length)
  | .allocUnit => some (.reserve .unit)
  | _ => none

namespace Scratch

theorem step_eq_fault (s : Scratch) {a b : ScratchAction} (h : a.guardedForm? = some b) (f : Fault) :
    (s.step a).1 = .fault f ↔ ∃ e, (s.step b).1 = .refused e ∧ f = .scratch e := by
  cases a with
  | alloc guarded t value =>
      cases guarded with
      | true => cases h
      | false =>
          cases h
          simp only [step, answerAlloc_eq_fault, answerAlloc_eq_refused]
  | allocZeroed guarded t count =>
      cases guarded with
      | true => cases h
      | false =>
          cases h
          simp only [step, answerAlloc_eq_fault, answerAlloc_eq_refused]
  | allocCopy t values =>
      cases h
      simp only [step, answerAlloc_eq_fault, answerAlloc_eq_refused, allocCopy, allocZeroed, allocWith_eq_error,
        List.length_map]
  | allocUnit =>
      -- nothing is asked for, so nothing is refused
      cases h
      constructor
      · intro hfault
        cases hfault
      · rintro ⟨e, hrefused, -⟩
        cases hrefused
  | _ => cases h

end Scratch

end CallCapture
