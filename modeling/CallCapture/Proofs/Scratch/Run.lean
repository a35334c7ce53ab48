import CallCapture.AddressSpace
import CallCapture.Proofs.Scratch.Hosts
import CallCapture.Proofs.Scratch.Steps

namespace CallCapture

def ScratchAction.blocks (a : ScratchAction) : ScratchAnswer → List Block
  | .address address =>
    match a with
    | .reserve l => [⟨address, l.size, l.align⟩]
    | _ => []
  | .allocated h => a.array?.toList.map fun x => ⟨h.address, x.values.length * x.elem.size, x.elem.align⟩
  | _ => []

inductive Arena.Undergoes (a : Arena) (action : ScratchAction) : List Block → Arena → Prop
  | reserves {l : Layout} {result : Except ArenaError Nat} {b : Arena} (kept : action ≠ .reset)
      (reserved : a.Reserves l result b) : Undergoes a action (l.blocks result) b
  | rests (kept : action ≠ .reset) : Undergoes a action [] a
  | resets (reset : action = .reset) : Undergoes a action [] a.reset

namespace Scratch

theorem undergoes_of_array? (s : Scratch) {a : ScratchAction} {x : TypedArray} (ha : a.array? = some x)
    (kept : a ≠ .reset) : s.arena.Undergoes a (a.blocks (s.step a).1) (s.step a).2.arena := by
  obtain ⟨guarded, result, t, halloc, hstep⟩ := s.step_allocates ha
  rw [hstep]
  cases halloc with
  | allocated layout reserved stored =>
      obtain ⟨hsize, halign⟩ := Layout.array?_eq_some layout
      have hu := Arena.Undergoes.reserves kept reserved
      rw [Layout.blocks, hsize, halign] at hu
      rw [answerAlloc, ScratchAction.blocks, ha]
      exact hu
  | refused layout reserved =>
      have hu := Arena.Undergoes.reserves kept reserved
      cases guarded <;> exact hu
  | overflows layout => cases guarded <;> exact .rests kept

theorem undergoes_reserve (s : Scratch) (l : Layout) :
    s.arena.Undergoes (.reserve l) ((ScratchAction.reserve l).blocks (s.step (.reserve l)).1)
      (s.step (.reserve l)).2.arena := by
  have hr := s.arena.reserves_reserve l
  rw [step]
  cases hresult : s.arena.reserve l with
  | mk result b =>
      rw [hresult] at hr
      have kept : ScratchAction.reserve l ≠ .reset := by simp
      have hu := Arena.Undergoes.reserves kept hr
      cases result with
      | ok address => exact hu
      | error e => exact hu

theorem step_undergoes (s : Scratch) (a : ScratchAction) :
    s.arena.Undergoes a (a.blocks (s.step a).1) (s.step a).2.arena := by
  cases a with
  | reserve l => exact undergoes_reserve s l
  | alloc guarded t value => exact undergoes_of_array? s rfl nofun
  | allocZeroed guarded t count => exact undergoes_of_array? s rfl nofun
  | allocCopy t values => exact undergoes_of_array? s rfl nofun
  | allocUnit => exact .rests nofun
  | set handle index value =>
      cases hk : s.handles[handle]? with
      | none =>
          rw [step_set_of_none hk]
          exact .rests nofun
      | some h =>
          by_cases hi : index < h.count
          · rw [step_set_of_lt hk hi]
            exact .rests nofun
          · rw [step_set_of_le hk (Nat.not_lt.mp hi)]
            exact .rests nofun
  | contents handle =>
      cases hk : s.handles[handle]? with
      | none =>
          rw [step_contents_of_none hk]
          exact .rests nofun
      | some h =>
          rw [step_contents hk]
          exact .rests nofun
  | config => exact .rests nofun
  | reset => exact .resets rfl

def transcript (s : Scratch) (actions : List ScratchAction) : List (ScratchAction × ScratchAnswer) :=
  actions.zip (s.run actions).1

/-- Whenever an action of the run asks for a chunk, the allocator grants only memory that the arena does not hold. -/
def ServedThrough (s : Scratch) : List ScratchAction → Prop
  | [] => True
  | a :: rest => s.arena.Served ∧ (s.step a).2.ServedThrough rest

theorem run_tracks {G : Type} (P : Scratch → G → Prop) (next : G → ScratchAction × ScratchAnswer → G)
    (hstep : ∀ s g a, P s g → s.arena.Served → P (s.step a).2 (next g (a, (s.step a).1)))
    {s : Scratch} {g : G} {actions : List ScratchAction} (h : P s g) (hserved : s.ServedThrough actions) :
    P (s.run actions).2 ((s.transcript actions).foldl next g) := by
  induction actions generalizing s g with
  | nil => exact h
  | cons a rest ih => exact ih (hstep s g a h hserved.1) hserved.2

theorem run_append (s : Scratch) (before after : List ScratchAction) :
    (s.run (before ++ after)).2 = ((s.run before).2.run after).2 := by
  induction before generalizing s with
  | nil => rfl
  | cons a rest ih => exact ih (s.step a).2

end Scratch

structure Arena.InSlots (a : Arena) : Prop where
  source : a.source = AddressSpace.placeChunk
  below : ∀ c ∈ a.chunks, c.base + c.size ≤ AddressSpace.firstChunk + a.granted * AddressSpace.chunkSlot

namespace Arena.InSlots

variable {a b : Arena}

theorem new (config : ArenaConfig) : (Arena.new config AddressSpace.placeChunk).InSlots :=
  ⟨rfl, fun _ hc => absurd hc List.not_mem_nil⟩

theorem chunk_bounds (h : a.InSlots) {size base : Nat} (hplace : a.place? size = some base) :
    AddressSpace.firstChunk + a.granted * AddressSpace.chunkSlot ≤ base ∧
      base + size ≤ AddressSpace.firstChunk + (a.granted + 1) * AddressSpace.chunkSlot := by
  rw [place?, h.source] at hplace
  simp only [AddressSpace.placeChunk] at hplace
  split at hplace
  · split at hplace
    · cases hplace
      rw [Nat.succ_mul]
      omega
    · cases hplace
  · cases hplace

theorem served (h : a.InSlots) : a.Served := by
  intro size base hplace c hc
  have hbase := (h.chunk_bounds hplace).1
  exact .inr (Nat.le_trans (h.below c hc) hbase)

theorem reserves {l : Layout} {result : Except ArenaError Nat} (h : a.InSlots) (hr : a.Reserves l result b) :
    b.InSlots := by
  have hslots : AddressSpace.firstChunk + a.granted * AddressSpace.chunkSlot ≤
      AddressSpace.firstChunk + (a.granted + 1) * AddressSpace.chunkSlot := by
    rw [Nat.succ_mul]
    omega
  cases hr with
  | empty | overflows | limited => exact h
  | refused => exact ⟨h.source, h.below⟩
  | misfits => exact ⟨h.source, fun c hc => Nat.le_trans (h.below c hc) hslots⟩
  | fits asked newest bumped =>
      have hbelow := h.below
      rw [newest] at hbelow
      obtain ⟨hc, hrest⟩ := List.forall_mem_cons.mp hbelow
      have hbump := Chunk.bumps_of_bump? bumped
      refine ⟨h.source, List.forall_mem_cons.mpr ⟨?_, hrest⟩⟩
      rw [hbump.base, hbump.size]
      exact hc
  | grows asked full sized placed bumped =>
      have hbump := Chunk.bumps_of_bump? bumped
      refine ⟨h.source, List.forall_mem_cons.mpr ⟨?_, fun c hc => Nat.le_trans (h.below c hc) hslots⟩⟩
      rw [hbump.base, hbump.size]
      exact (h.chunk_bounds placed).2

theorem reset (h : a.InSlots) : a.reset.InSlots := by
  refine ⟨h.source, fun c hc => ?_⟩
  obtain ⟨d, hd, rfl⟩ := List.mem_map.mp hc
  exact h.below d (List.mem_of_mem_take hd)

theorem undergoes {action : ScratchAction} {blocks : List Block} (h : a.InSlots)
    (hu : a.Undergoes action blocks b) : b.InSlots := by
  cases hu with
  | reserves kept reserved => exact h.reserves reserved
  | rests => exact h
  | resets => exact h.reset

end Arena.InSlots

theorem Scratch.servedThrough_of_inSlots {s : Scratch} (h : s.arena.InSlots) (actions : List ScratchAction) :
    s.ServedThrough actions := by
  induction actions generalizing s with
  | nil => trivial
  | cons a rest ih => exact ⟨h.served, ih (h.undergoes (s.step_undergoes a))⟩

end CallCapture
