import CallCapture.Proofs.Scratch.Refusals
import CallCapture.Proofs.Scratch.Run

namespace CallCapture

namespace Arena

variable {a b : Arena} {l : Layout}

structure Bounded (a : Arena) : Prop where
  cursor_le : ∀ c ∈ a.chunks, c.cursor ≤ c.size
  capacity_le : ∀ limit, a.config.maxBytes = some limit → a.capacity ≤ limit

theorem bounded_new (config : ArenaConfig) (source : ChunkSource) : (Arena.new config source).Bounded where
  cursor_le := nofun
  capacity_le limit _ := Nat.zero_le limit

section sums

variable {chunks : List Chunk}

theorem foldr_cursor_le (h : ∀ c ∈ chunks, c.cursor ≤ c.size) :
    chunks.foldr (fun c n => c.cursor + n) 0 ≤ chunks.foldr (fun c n => c.size + n) 0 := by
  induction chunks with
  | nil => exact Nat.le_refl 0
  | cons c rest ih =>
      obtain ⟨hc, hrest⟩ := List.forall_mem_cons.mp h
      exact Nat.add_le_add hc (ih hrest)

theorem used_of_chunks {c : Chunk} (h : a.chunks = c :: chunks) :
    a.used = c.cursor + chunks.foldr (fun c n => c.cursor + n) 0 := by
  rw [used, h, List.foldr_cons]

theorem capacity_of_chunks {c : Chunk} (h : a.chunks = c :: chunks) :
    a.capacity = c.size + chunks.foldr (fun c n => c.size + n) 0 := by
  rw [capacity, h, List.foldr_cons]

end sums

theorem Bounded.used_le (h : a.Bounded) : a.used ≤ a.capacity := foldr_cursor_le h.cursor_le

theorem capacity_add_le {limit needed size : Nat} (hlimit : a.config.maxBytes = some limit)
    (hheld : a.capacity ≤ limit) (h : a.chunkSizeFor l needed = .ok size) : a.capacity + size ≤ limit := by
  simp only [chunkSizeFor, hlimit] at h
  split at h
  · cases h
  · cases h
    omega

theorem Reserves.bounded {result : Except ArenaError Nat} (h : a.Bounded) (hr : a.Reserves l result b) :
    b.Bounded := by
  cases hr with
  | empty | overflows | limited | refused | misfits => exact ⟨h.cursor_le, h.capacity_le⟩
  | fits asked newest bumped =>
      have hbump := Chunk.bumps_of_bump? bumped
      have hcursor := h.cursor_le
      rw [newest] at hcursor
      refine ⟨List.forall_mem_cons.mpr ⟨hbump.fits, (List.forall_mem_cons.mp hcursor).2⟩, fun limit hlimit => ?_⟩
      have hheld := h.capacity_le limit hlimit
      rw [capacity_of_chunks newest] at hheld
      rw [capacity_of_chunks rfl, hbump.size]
      exact hheld
  | grows asked full sized placed bumped =>
      have hbump := Chunk.bumps_of_bump? bumped
      refine ⟨List.forall_mem_cons.mpr ⟨hbump.fits, h.cursor_le⟩, fun limit hlimit => ?_⟩
      have hheld : a.capacity + _ ≤ limit := capacity_add_le hlimit (h.capacity_le limit hlimit) sized
      rw [capacity_of_chunks rfl, hbump.size, Nat.add_comm]
      exact hheld

theorem Bounded.reset (h : a.Bounded) : a.reset.Bounded where
  cursor_le := by
    intro c hc
    obtain ⟨d, -, rfl⟩ := List.mem_map.mp hc
    exact Nat.zero_le _
  capacity_le := by
    intro limit hlimit
    have hheld := h.capacity_le limit hlimit
    cases hchunks : a.chunks with
    | nil =>
        rw [capacity, Arena.reset, hchunks]
        exact Nat.zero_le limit
    | cons c rest =>
        rw [capacity_of_chunks hchunks] at hheld
        rw [capacity, Arena.reset, hchunks]
        exact Nat.le_trans (Nat.le_add_right _ _) hheld

theorem Reserves.config {result : Except ArenaError Nat} (hr : a.Reserves l result b) : b.config = a.config := by
  cases hr <;> rfl

theorem Undergoes.config {action : ScratchAction} {blocks : List Block} (hu : a.Undergoes action blocks b) :
    b.config = a.config := by
  cases hu with
  | reserves _ reserved => exact reserved.config
  | rests | resets => rfl

theorem Bounded.undergoes {action : ScratchAction} {blocks : List Block} (h : a.Bounded)
    (hu : a.Undergoes action blocks b) : b.Bounded := by
  cases hu with
  | reserves kept reserved => exact reserved.bounded h
  | rests => exact h
  | resets => exact h.reset

theorem Reserves.used_of_ok {address : Nat} (hr : a.Reserves l (.ok address) b) (asked : l.size ≠ 0) :
    a.used + l.size ≤ b.used ∧ b.used ≤ a.used + (l.size + l.align - 1) := by
  cases hr with
  | empty none_asked => exact absurd none_asked asked
  | fits asked newest bumped =>
      have hbump := Chunk.bumps_of_bump? bumped
      have hlow := hbump.cursor_le
      have hhigh := hbump.address_lt
      have hstop := hbump.stop
      have hbase := hbump.base
      rw [used_of_chunks newest, used_of_chunks rfl]
      omega
  | grows asked full sized placed bumped =>
      have hbump := Chunk.bumps_of_bump? bumped
      have hlow := hbump.cursor_le
      have hhigh := hbump.address_lt
      have hstop := hbump.stop
      have hbase := hbump.base
      rw [used_of_chunks (a := { a with granted := _, chunks := _ }) rfl]
      rw [used]
      dsimp only at hlow hhigh hbase
      omega

theorem Reserves.chunkCount {result : Except ArenaError Nat} (hr : a.Reserves l result b) :
    b.chunkCount = a.chunkCount ∨ b.chunkCount = a.chunkCount + 1 := by
  cases hr with
  | empty | overflows | limited | refused | misfits => exact .inl rfl
  | fits asked newest bumped => exact .inl (by rw [Arena.chunkCount, Arena.chunkCount, newest]; rfl)
  | grows => exact .inr rfl

theorem Reserves.of_empty {result : Except ArenaError Nat} (hr : a.Reserves l result b) (h : l.size = 0) :
    result = .ok l.align ∧ b = a := by
  cases hr with
  | empty => exact ⟨rfl, rfl⟩
  | fits asked | grows asked | overflows asked | limited asked | refused asked | misfits asked => exact absurd h asked

end Arena

/-- The layout that an action asks memory for. An array that no layout can have is not asked for. -/
def ScratchAction.layout? : ScratchAction → Option Layout
  | .reserve l => some l
  | .allocUnit => some .unit
  | .alloc _ t _ => Layout.array? t 1
  | .allocZeroed _ t count => Layout.array? t count
  | .allocCopy t values => Layout.array? t values.length
  | _ => none

theorem ScratchAction.layout?_of_array? {a : ScratchAction} {x : TypedArray} (h : a.array? = some x) :
    a.layout? = Layout.array? x.elem x.values.length := by
  cases a with
  | alloc => cases h; rfl
  | allocZeroed =>
      cases h
      rw [layout?, List.length_replicate]
  | allocCopy =>
      cases h
      rw [layout?, List.length_map]
  | _ => cases h

namespace Scratch

theorem isFailure_answerAlloc (guarded : Bool) (r : Except ArenaError Handle × Scratch) :
    (answerAlloc guarded r).1.isFailure ↔ ∃ e, r.1 = .error e := by
  rcases r with ⟨e | k, s⟩
  · cases guarded <;> exact ⟨fun _ => ⟨e, rfl⟩, fun _ => rfl⟩
  · exact ⟨nofun, nofun⟩

theorem state_answerAlloc (guarded : Bool) (r : Except ArenaError Handle × Scratch) :
    (answerAlloc guarded r).2 = r.2 := by
  rcases r with ⟨e | k, s⟩ <;> rfl

theorem step_reserves (s : Scratch) {a : ScratchAction} {l : Layout} (h : a.layout? = some l) :
    ∃ result, s.arena.Reserves l result (s.step a).2.arena ∧
      ((s.step a).1.isFailure ↔ ∃ e, result = .error e) ∧ (l.size = 0 → (s.step a).2.storage = s.storage) := by
  cases ha : a.array? with
  | none =>
      cases a with
      | reserve k =>
          cases h
          refine ⟨(s.arena.reserve l).1, ?_, ?_, fun _ => ?_⟩
          · rw [state_step_reserve]
            exact s.arena.reserves_reserve l
          · rw [step]
            rcases s.arena.reserve l with ⟨e | address, b⟩ <;> simp [ScratchAnswer.isFailure]
          · rw [state_step_reserve]
      | allocUnit =>
          cases h
          exact ⟨_, .empty rfl, by simp [step, ScratchAnswer.isFailure], fun _ => rfl⟩
      | alloc | allocZeroed | allocCopy => cases ha
      | _ => cases h
  | some x =>
      obtain ⟨guarded, result, t, hallocates, hstep⟩ := s.step_allocates ha
      rw [ScratchAction.layout?_of_array? ha] at h
      rw [hstep, isFailure_answerAlloc, state_answerAlloc]
      cases hallocates with
      | allocated layout reserved stored =>
          cases h.symm.trans layout
          refine ⟨_, reserved, by simp, fun hempty => stored.eq_of_empty ?_⟩
          rw [length_encodeAll, ← (Layout.array?_eq_some layout).1, hempty]
      | refused layout reserved =>
          cases h.symm.trans layout
          exact ⟨_, reserved, by simp, fun _ => rfl⟩
      | overflows layout => cases h.symm.trans layout

theorem arena_step_set (s : Scratch) (k index : Nat) (value : Literal) :
    (s.step (.set k index value)).2.arena = s.arena := by
  cases hk : s.handles[k]? with
  | none => rw [step_set_of_none hk]
  | some h =>
      rcases Nat.lt_or_ge index h.count with hi | hi
      · rw [step_set_of_lt hk hi]
        rfl
      · rw [step_set_of_le hk hi]

theorem arena_step_of_layout? (s : Scratch) {a : ScratchAction} (h : a.layout? = none) (kept : a ≠ .reset) :
    (s.step a).2.arena = s.arena := by
  cases ha : a.array? with
  | none =>
      cases a with
      | reserve | allocUnit => cases h
      | alloc | allocZeroed | allocCopy => cases ha
      | set k index value => exact s.arena_step_set k index value
      | contents k => rw [state_step_contents]
      | config => rfl
      | reset => exact absurd rfl kept
  | some x =>
      obtain ⟨guarded, result, t, hallocates, hstep⟩ := s.step_allocates ha
      rw [ScratchAction.layout?_of_array? ha] at h
      rw [hstep, state_answerAlloc]
      cases hallocates with
      | allocated layout | refused layout => cases h.symm.trans layout
      | overflows => rfl

structure Accounts (s : Scratch) (a : ScratchAction) : Prop where
  granted : ∀ l, a.layout? = some l → l.size ≠ 0 → (s.step a).1.isFailure = false →
    s.arena.used + l.size ≤ (s.step a).2.arena.used ∧
      (s.step a).2.arena.used ≤ s.arena.used + (l.size + l.align - 1) ∧
      s.arena.chunkCount ≤ (s.step a).2.arena.chunkCount ∧
      (s.step a).2.arena.chunkCount ≤ s.arena.chunkCount + 1
  empty : ∀ l, a.layout? = some l → l.size = 0 → (s.step a).1.isFailure = false ∧
    (s.step a).2.arena = s.arena ∧ (s.step a).2.storage = s.storage
  changed : (s.step a).2.arena.used ≠ s.arena.used ∨ (s.step a).2.arena.chunkCount ≠ s.arena.chunkCount →
    a = .reset ∨ ∃ l, a.layout? = some l ∧ l.size ≠ 0 ∧ (s.step a).1.isFailure = false

theorem accounts (s : Scratch) (a : ScratchAction) : s.Accounts a where
  granted l hl asked hgranted := by
    obtain ⟨result, hreserves, hfailure, -⟩ := s.step_reserves hl
    have hcount := hreserves.chunkCount
    cases result with
    | error e =>
        rw [hfailure.mpr ⟨e, rfl⟩] at hgranted
        cases hgranted
    | ok address =>
        obtain ⟨hlow, hhigh⟩ := hreserves.used_of_ok asked
        exact ⟨hlow, hhigh, by omega, by omega⟩
  empty l hl hempty := by
    obtain ⟨result, hreserves, hfailure, hstorage⟩ := s.step_reserves hl
    obtain ⟨rfl, harena⟩ := hreserves.of_empty hempty
    refine ⟨?_, harena, hstorage hempty⟩
    rw [← Bool.not_eq_true, hfailure]
    exact nofun
  changed hchanged := by
    by_contra hnone
    rw [not_or] at hnone
    obtain ⟨kept, hrequest⟩ := hnone
    suffices hholds : s.arena.Holds (s.step a).2.arena by
      rw [hholds.used, hholds.chunkCount] at hchanged
      exact hchanged.elim (absurd rfl) (absurd rfl)
    cases hl : a.layout? with
    | none =>
        rw [s.arena_step_of_layout? hl kept]
        exact .refl s.arena
    | some l =>
        cases hfailure : (s.step a).1.isFailure with
        | true => exact (s.step_untouched hfailure).arena
        | false =>
            by_cases hsize : l.size = 0
            · obtain ⟨_, hreserves, -, -⟩ := s.step_reserves hl
              rw [(hreserves.of_empty hsize).2]
              exact .refl s.arena
            · exact absurd ⟨l, hl, hsize, hfailure⟩ hrequest

theorem bounded_run {s : Scratch} (h : s.arena.Bounded) (actions : List ScratchAction) :
    (s.run actions).2.arena.Bounded := by
  induction actions generalizing s with
  | nil => exact h
  | cons a rest ih => exact ih (h.undergoes (s.step_undergoes a))

theorem config_run (s : Scratch) (actions : List ScratchAction) : (s.run actions).2.arena.config = s.arena.config := by
  induction actions generalizing s with
  | nil => rfl
  | cons a rest ih => exact (ih _).trans (s.step_undergoes a).config

/-- In every state that an arena can get into, no chunk is used beyond its end, so no more is used than held, and no
more is held than the limit allows. A request of any size and alignment that is granted uses up its size and less than
its alignment more, for at most one new chunk; a request for nothing changes nothing; and apart from such grants only a
reset changes what is used and how many chunks there are. -/
theorem run_accounts (config : ArenaConfig) (source : ChunkSource) (actions : List ScratchAction) :
    let s := ((Scratch.new config source).run actions).2
    (∀ c ∈ s.arena.chunks, c.cursor ≤ c.size) ∧ s.arena.used ≤ s.arena.capacity ∧
      (∀ limit, config.maxBytes = some limit → s.arena.capacity ≤ limit) ∧ ∀ a, s.Accounts a := by
  intro s
  have hbounded : s.arena.Bounded := bounded_run (Arena.bounded_new config source) actions
  have hconfig : s.arena.config = config := config_run (Scratch.new config source) actions
  refine ⟨hbounded.cursor_le, hbounded.used_le, fun limit hlimit => ?_, s.accounts⟩
  exact hbounded.capacity_le limit (by rw [hconfig, hlimit])

/-- The first block is padded by 16 bytes; for the second the allocator is asked for the 36 bytes left, not for 128. -/
theorem limit_reached_by_padded_blocks :
    let l : Layout := ⟨20, 4, by decide⟩
    let s := ((Scratch.new ⟨64, some 100⟩ AddressSpace.placeChunk).run [.reserve ⟨40, 5, by decide⟩]).2
    let t := (s.step (.reserve l)).2
    s.arena.used = 56 ∧ t.arena.capacity = 100 ∧ s.arena.capacity ≤ 100 ∧
      s.arena.used + l.size ≤ t.arena.used ∧ t.arena.used ≤ s.arena.used + (l.size + l.align - 1) := by
  intro l s t
  obtain ⟨-, -, hlimit, haccounts⟩ :=
    run_accounts ⟨64, some 100⟩ AddressSpace.placeChunk [.reserve ⟨40, 5, by decide⟩]
  have hsecond : s.Accounts (.reserve l) := haccounts (.reserve l)
  obtain ⟨hlow, hhigh, -⟩ := hsecond.granted l rfl (by decide) (by decide)
  exact ⟨by decide, by decide, hlimit 100 rfl, hlow, hhigh⟩

end Scratch

end CallCapture
