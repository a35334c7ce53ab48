import CallCapture.Proofs.Scratch.Outcomes
import Mathlib.Data.List.Chain

namespace CallCapture

theorem ArenaConfig.growthLimit_eq : growthLimit = 2 ^ 20 := by decide

/-- A chunk of `newer` bytes is as large as growth makes it after one of `older` bytes. -/
def ArenaConfig.Grows (c : ArenaConfig) (newer older : Nat) : Prop := c.nextChunkSize (some older) 0 ≤ newer

theorem ArenaConfig.grows_iff {c : ArenaConfig} {newer older : Nat} :
    c.Grows newer older ↔ min (2 * older) growthLimit ≤ newer ∧ c.chunkSize ≤ newer := by
  rw [Grows, nextChunkSize, Nat.max_zero, Nat.max_le]

theorem ArenaConfig.min_le_of_grows {c : ArenaConfig} {newest : Nat} {sizes : List Nat}
    (h : (newest :: sizes).IsChain c.Grows) {size : Nat} (hsize : size ∈ sizes) :
    min size (max growthLimit c.chunkSize) ≤ newest := by
  induction sizes generalizing newest with
  | nil => cases hsize
  | cons next sizes ih =>
      obtain ⟨hgrows, hrest⟩ := List.isChain_cons_cons.mp h
      obtain ⟨hdouble, hleast⟩ := grows_iff.mp hgrows
      rcases List.mem_cons.mp hsize with rfl | hmem
      · omega
      · have hle := ih hrest hmem
        omega

theorem ArenaConfig.min_doubled_le {c : ArenaConfig} {size oldest : Nat} {older : List Nat}
    (h : (size :: older).IsChain c.Grows) (holdest : (size :: older).getLast? = some oldest) :
    min (oldest * 2 ^ older.length) growthLimit ≤ size := by
  induction older generalizing size with
  | nil =>
      cases holdest
      rw [List.length_nil, Nat.pow_zero, Nat.mul_one]
      exact Nat.min_le_left _ _
  | cons next older ih =>
      obtain ⟨hgrows, hrest⟩ := List.isChain_cons_cons.mp h
      have hdouble := (grows_iff.mp hgrows).1
      have hle := ih hrest holdest
      -- The chunk before is at the limit of growth already, or this one has twice what the bound gives for it.
      rw [List.length_cons, Nat.pow_succ, ← Nat.mul_assoc]
      omega

namespace Arena

variable {a b : Arena} {l : Layout}

/-- The sizes of the chunks, that of the newest first. -/
def sizes (a : Arena) : List Nat := a.chunks.map Chunk.size

def Exhausted (a : Arena) : Prop := a.config.maxBytes = some a.capacity

/-- Every chunk is as large as growth makes it, but for a newest one that took the rest of what the limit allows. -/
structure Grown (a : Arena) : Prop where
  older : a.sizes.tail.IsChain a.config.Grows
  newest : ¬a.Exhausted → a.sizes.IsChain a.config.Grows

theorem grown_new (config : ArenaConfig) (source : ChunkSource) : (Arena.new config source).Grown where
  older := List.isChain_nil
  newest _ := List.isChain_nil

theorem sizes_of_chunks {c : Chunk} {rest : List Chunk} (h : a.chunks = c :: rest) :
    a.sizes = c.size :: rest.map Chunk.size := by
  rw [sizes, h, List.map_cons]

theorem capacity_eq_foldr (a : Arena) : a.capacity = a.sizes.foldr (fun size n => size + n) 0 := by
  rw [capacity, sizes, List.foldr_map]

theorem exhausted_of_sizes (hconfig : b.config = a.config) (hsizes : b.sizes = a.sizes) :
    b.Exhausted ↔ a.Exhausted := by
  rw [Exhausted, Exhausted, hconfig, capacity_eq_foldr, hsizes, ← capacity_eq_foldr]

theorem Grown.of_sizes (h : a.Grown) (hconfig : b.config = a.config) (hsizes : b.sizes = a.sizes) : b.Grown where
  older := by
    rw [hconfig, hsizes]
    exact h.older
  newest hleft := by
    rw [exhausted_of_sizes hconfig hsizes] at hleft
    rw [hconfig, hsizes]
    exact h.newest hleft

theorem Grown.grows_or_exhausted (h : a.Grown) {newer older : List Nat} {size previous : Nat}
    (hsizes : a.sizes = newer ++ size :: previous :: older) :
    a.config.Grows size previous ∨ newer = [] ∧ a.Exhausted := by
  cases newer with
  | nil =>
      by_cases hexhausted : a.Exhausted
      · exact .inr ⟨rfl, hexhausted⟩
      · have hchain := h.newest hexhausted
        rw [hsizes] at hchain
        exact .inl (List.isChain_cons_cons.mp hchain).1
  | cons newest newer =>
      have hchain := h.older
      rw [hsizes, List.cons_append, List.tail_cons] at hchain
      exact .inl (List.isChain_append_cons_cons.mp hchain).2.1

theorem Exhausted.not_sized (h : a.Exhausted) (asked : l.size ≠ 0) (size : Nat) :
    a.chunkSizeFor l (needed l) ≠ .ok size := by
  have hexceeds : a.Exceeds l a.capacity := ⟨h, by rw [needed]; omega⟩
  rw [chunkSizeFor_of_exceeds hexceeds]
  simp

theorem grows_freshSize (hbounded : a.Bounded) {size : Nat} (hnewest : size ∈ a.sizes.head?) :
    a.config.Grows (a.freshSize l) size ∨ a.config.maxBytes = some (a.freshSize l + a.capacity) := by
  have hhead : a.chunks.head?.map Chunk.size = some size := by rwa [sizes, List.head?_map] at hnewest
  have hnext : a.config.Grows (a.config.nextChunkSize (some size) (needed l)) size :=
    Nat.max_le.mpr ⟨Nat.le_max_left _ _, Nat.zero_le _⟩
  rw [freshSize, hhead]
  cases hlimit : a.config.maxBytes with
  | none => exact .inl hnext
  | some limit =>
      have hheld := hbounded.capacity_le limit hlimit
      rcases Nat.le_total (a.config.nextChunkSize (some size) (needed l)) (limit - a.capacity) with hle | hle
      · refine .inl ?_
        rwa [Option.elim_some, Nat.min_eq_left hle]
      · refine .inr ?_
        rw [Option.elim_some, Nat.min_eq_right hle, Nat.sub_add_cancel hheld]

theorem Reserves.sizes {result : Except ArenaError Nat} (hr : a.Reserves l result b) :
    b.sizes = a.sizes ∨
      ∃ size, l.size ≠ 0 ∧ a.chunkSizeFor l (needed l) = .ok size ∧ b.sizes = size :: a.sizes := by
  cases hr with
  | empty | overflows | limited | refused | misfits => exact .inl rfl
  | fits _ newest bumped =>
      refine .inl ?_
      rw [sizes_of_chunks newest, sizes_of_chunks rfl, (Chunk.bumps_of_bump? bumped).size]
  | grows asked _ sized _ bumped =>
      refine .inr ⟨_, asked, sized, ?_⟩
      rw [sizes_of_chunks rfl, (Chunk.bumps_of_bump? bumped).size]
      rfl

theorem Reserves.grown {result : Except ArenaError Nat} (h : a.Grown) (hbounded : a.Bounded)
    (hr : a.Reserves l result b) : b.Grown := by
  rcases hr.sizes with hsame | ⟨size, asked, sized, hsizes⟩
  · exact h.of_sizes hr.config hsame
  · have hchain : a.sizes.IsChain a.config.Grows := h.newest fun hexhausted => hexhausted.not_sized asked size sized
    obtain ⟨-, rfl⟩ := within_of_sized sized
    refine ⟨?_, fun hleft => ?_⟩
    · rw [hsizes, hr.config]
      exact hchain
    · rw [hsizes, hr.config]
      refine List.isChain_cons.mpr ⟨fun size hnewest => ?_, hchain⟩
      refine (grows_freshSize hbounded hnewest).resolve_right fun hexhausted => hleft ?_
      rw [Exhausted, hr.config, capacity_eq_foldr, hsizes, List.foldr_cons, ← capacity_eq_foldr]
      exact hexhausted

theorem Exhausted.sizes {action : ScratchAction} {blocks : List Block} (h : a.Exhausted) (kept : action ≠ .reset)
    (hu : a.Undergoes action blocks b) : b.sizes = a.sizes := by
  cases hu with
  | reserves _ reserved =>
      rcases reserved.sizes with hsame | ⟨size, asked, sized, -⟩
      · exact hsame
      · exact absurd sized (h.not_sized asked size)
  | rests => rfl
  | resets reset => exact absurd reset kept

theorem reset_of_nil (h : a.chunks = []) : a.reset = a := by
  cases a
  cases h
  rfl

theorem chunks_reset {c : Chunk} {rest : List Chunk} (h : a.chunks = c :: rest) :
    a.reset.chunks = [{ c with cursor := 0 }] := by
  rw [reset, h]
  rfl

theorem Grown.reset (h : a.Grown) : a.reset.Grown := by
  cases hchunks : a.chunks with
  | nil =>
      rw [reset_of_nil hchunks]
      exact h
  | cons c rest =>
      have hsizes := sizes_of_chunks (chunks_reset hchunks)
      refine ⟨?_, fun _ => ?_⟩
      · rw [hsizes]
        exact List.isChain_nil
      · rw [hsizes]
        exact List.isChain_singleton _

theorem Grown.undergoes {action : ScratchAction} {blocks : List Block} (h : a.Grown) (hbounded : a.Bounded)
    (hu : a.Undergoes action blocks b) : b.Grown := by
  cases hu with
  | reserves _ reserved => exact reserved.grown h hbounded
  | rests => exact h
  | resets => exact h.reset

theorem Grown.min_le (h : a.Grown) (hleft : ¬a.Exhausted) {c d : Chunk} {rest : List Chunk}
    (hchunks : a.chunks = c :: rest) (hd : d ∈ a.chunks) :
    min d.size (max ArenaConfig.growthLimit a.config.chunkSize) ≤ c.size := by
  have hchain := h.newest hleft
  rw [sizes_of_chunks hchunks] at hchain
  rw [hchunks] at hd
  rcases List.mem_cons.mp hd with rfl | hmem
  · exact Nat.min_le_left _ _
  · exact ArenaConfig.min_le_of_grows hchain (List.mem_map_of_mem hmem)

end Arena

namespace Scratch

theorem grown_run {s : Scratch} (h : s.arena.Grown) (hbounded : s.arena.Bounded) (actions : List ScratchAction) :
    (s.run actions).2.arena.Grown := by
  induction actions generalizing s with
  | nil => exact h
  | cons a rest ih =>
      have hu := s.step_undergoes a
      exact ih (h.undergoes hbounded hu) (hbounded.undergoes hu)

theorem sizes_run_of_exhausted {s : Scratch} (h : s.arena.Exhausted) {actions : List ScratchAction}
    (kept : .reset ∉ actions) : (s.run actions).2.arena.sizes = s.arena.sizes := by
  induction actions generalizing s with
  | nil => rfl
  | cons a rest ih =>
      obtain ⟨hreset, hrest⟩ := List.ne_and_not_mem_of_not_mem_cons kept
      have hu := s.step_undergoes a
      have hsizes := h.sizes hreset.symm hu
      exact (ih ((Arena.exhausted_of_sizes hu.config hsizes).mpr h) hrest).trans hsizes

/-- In every state that an arena can get into, a reset does nothing if there is no chunk; else it leaves just the newest
one, with nothing used of it. This is the largest one just when no other is larger. None is larger than both it and what
growth alone comes to, as long as the limit has something left. -/
theorem reset_keeps_newest (config : ArenaConfig) (source : ChunkSource) (actions : List ScratchAction) :
    let s := ((Scratch.new config source).run actions).2
    let t := (s.step .reset).2
    (s.arena.chunks = [] → t.arena = s.arena) ∧
    ∀ c rest, s.arena.chunks = c :: rest →
      t.arena.chunkCount = 1 ∧ t.arena.used = 0 ∧ t.arena.capacity = c.size ∧
      (s.arena.sizes.max? = some t.arena.capacity ↔ ∀ d ∈ rest, d.size ≤ c.size) ∧
      (config.maxBytes ≠ some s.arena.capacity →
        ∀ d ∈ rest, min d.size (max ArenaConfig.growthLimit config.chunkSize) ≤ c.size) := by
  intro s t
  have hconfig : s.arena.config = config := config_run (Scratch.new config source) actions
  have hgrown : s.arena.Grown := grown_run (Arena.grown_new config source) (Arena.bounded_new config source) actions
  refine ⟨Arena.reset_of_nil, fun c rest hchunks => ?_⟩
  have hkept : t.arena.chunks = [{ c with cursor := 0 }] := Arena.chunks_reset hchunks
  have hcapacity : t.arena.capacity = c.size := Arena.capacity_of_chunks hkept
  refine ⟨?_, Arena.used_of_chunks hkept, hcapacity, ?_, fun hleft d hd => ?_⟩
  · rw [Arena.chunkCount, hkept, List.length_singleton]
  · rw [List.max?_eq_some_iff, Arena.sizes_of_chunks hchunks, hcapacity]
    simp
  · rw [← hconfig] at hleft ⊢
    exact hgrown.min_le hleft hchunks (hchunks ▸ List.mem_cons_of_mem c hd)

theorem doubled_chunk_kept :
    let s := ((Scratch.new ⟨64, none⟩ AddressSpace.placeChunk).run
      [.reserve ⟨60, 0, by decide⟩, .reserve ⟨100, 0, by decide⟩]).2
    s.arena.sizes.max? = some (s.step .reset).2.arena.capacity := by
  intro s
  have hchunks : s.arena.chunks = [⟨0x301000010, 128, 100⟩, ⟨0x300000010, 64, 60⟩] := by decide +kernel
  obtain ⟨-, hkeeps⟩ := reset_keeps_newest ⟨64, none⟩ AddressSpace.placeChunk
    [.reserve ⟨60, 0, by decide⟩, .reserve ⟨100, 0, by decide⟩]
  obtain ⟨-, -, -, hlargest, -⟩ := hkeeps _ _ hchunks
  exact hlargest.mpr (by decide)

/-- The chunk of a request of 2 MiB is followed by one of 1 MiB, which a reset keeps in its place. -/
theorem large_chunk_lost_in_reset :
    let s := ((Scratch.new .standard AddressSpace.placeChunk).run
      [.reserve ⟨1 <<< 21, 0, by decide⟩, .reserve ⟨1, 0, by decide⟩]).2
    s.arena.sizes.max? = some (1 <<< 21) ∧ (s.step .reset).2.arena.capacity = 1 <<< 20 := by
  decide +kernel

/-- In every state that an arena can get into, a chunk has at least twice the bytes of the one before, up to 1 MiB, and
at least as many as configured. Only the newest one can have fewer, and then the chunks take up all that the limit
allows; in that case none is added until a reset. As long as the limit leaves something, and always if there is none, a
chunk has at least the bytes of the oldest one, doubled once for each chunk before it, up to 1 MiB. -/
theorem chunks_double_until_exhausted (config : ArenaConfig) (source : ChunkSource) (actions : List ScratchAction) :
    let s := ((Scratch.new config source).run actions).2
    (∀ newer size previous older, s.arena.sizes = newer ++ size :: previous :: older →
      max (min (2 * previous) (2 ^ 20)) config.chunkSize ≤ size ∨
        newer = [] ∧ config.maxBytes = some s.arena.capacity) ∧
    (config.maxBytes = some s.arena.capacity →
      ∀ later : List ScratchAction, .reset ∉ later → (s.run later).2.arena.sizes = s.arena.sizes) ∧
    (config.maxBytes ≠ some s.arena.capacity →
      ∀ newer size older oldest, s.arena.sizes = newer ++ size :: older → s.arena.sizes.getLast? = some oldest →
        min (oldest * 2 ^ older.length) (2 ^ 20) ≤ size) := by
  intro s
  have hconfig : s.arena.config = config := config_run (Scratch.new config source) actions
  have hgrown : s.arena.Grown := grown_run (Arena.grown_new config source) (Arena.bounded_new config source) actions
  rw [← hconfig, ← ArenaConfig.growthLimit_eq]
  refine ⟨fun newer size previous older hsizes => ?_, fun hexhausted later kept => ?_,
    fun hleft newer size older oldest hsizes holdest => ?_⟩
  · rw [Nat.max_le, ← ArenaConfig.grows_iff]
    exact hgrown.grows_or_exhausted hsizes
  · exact sizes_run_of_exhausted hexhausted kept
  · have hchain := hgrown.newest hleft
    rw [hsizes] at hchain holdest
    rw [List.getLast?_append_of_ne_nil newer (List.cons_ne_nil size older)] at holdest
    exact ArenaConfig.min_doubled_le hchain.right_of_append holdest

/-- Of the 400 bytes allowed, the first two chunks leave 208 for the third, which would have 256. Without a limit the
chunk of 1000 bytes for a large request, kept by a reset, is followed by one of 2000. -/
theorem clipped_chunk_stays_newest :
    let s := ((Scratch.new ⟨64, some 400⟩ AddressSpace.placeChunk).run
      [.reserve ⟨60, 0, by decide⟩, .reserve ⟨100, 0, by decide⟩, .reserve ⟨100, 0, by decide⟩]).2
    let t := ((Scratch.new ⟨64, none⟩ AddressSpace.placeChunk).run
      [.reserve ⟨60, 0, by decide⟩, .reserve ⟨1000, 0, by decide⟩, .reset, .reserve ⟨1200, 0, by decide⟩]).2
    s.arena.sizes = [208, 128, 64] ∧ max (min (2 * 64) (2 ^ 20)) 64 ≤ 128 ∧
      (s.run [.reserve ⟨150, 0, by decide⟩, .allocUnit]).2.arena.sizes = [208, 128, 64] ∧
      t.arena.sizes = [2000, 1000] ∧ min (1000 * 2 ^ 1) (2 ^ 20) ≤ 2000 := by
  intro s t
  have hclipped : s.arena.sizes = [208, 128, 64] := by decide +kernel
  have hdoubled : t.arena.sizes = [2000, 1000] := by decide +kernel
  have hcapacity : s.arena.capacity = 400 := by rw [Arena.capacity_eq_foldr, hclipped]; rfl
  obtain ⟨hgrows, hkept, -⟩ := chunks_double_until_exhausted ⟨64, some 400⟩ AddressSpace.placeChunk
    [.reserve ⟨60, 0, by decide⟩, .reserve ⟨100, 0, by decide⟩, .reserve ⟨100, 0, by decide⟩]
  obtain ⟨-, -, hdouble⟩ := chunks_double_until_exhausted ⟨64, none⟩ AddressSpace.placeChunk
    [.reserve ⟨60, 0, by decide⟩, .reserve ⟨1000, 0, by decide⟩, .reset, .reserve ⟨1200, 0, by decide⟩]
  refine ⟨hclipped, ?_, ?_, hdoubled, ?_⟩
  · exact (hgrows [208] 128 64 [] hclipped).resolve_right fun h => List.cons_ne_nil _ _ h.1
  · exact (hkept (congrArg some hcapacity.symm) _ (by simp)).trans hclipped
  · exact hdouble (by simp) [] 2000 [1000] 1000 hdoubled (by rw [hdoubled]; rfl)

end Scratch

end CallCapture
