import CallCapture.Proofs.Scratch.Accounting

namespace CallCapture

/-- Every block that is granted begins at a multiple of `chunkAlign`. -/
def ChunkSource.Aligned (source : ChunkSource) : Prop :=
  ∀ granted refused size base, source granted refused size = some base → chunkAlign ∣ base

theorem AddressSpace.aligned_placeChunk : ChunkSource.Aligned placeChunk := by
  intro granted refused size base h
  simp only [placeChunk] at h
  split at h
  · cases h
    exact Nat.dvd_add (Nat.dvd_add (by decide) (Nat.dvd_mul_left_of_dvd (by decide) granted)) (by decide)
  · cases h

namespace Chunk

variable {c d : Chunk} {l : Layout} {address : Nat}

theorem bump?_of_le (h : roundUp (c.base + c.cursor) l.align + l.size ≤ c.base + c.size) :
    ∃ d, c.bump? l = some (roundUp (c.base + c.cursor) l.align, d) := by
  have hle := le_roundUp (c.base + c.cursor) l.align_pos
  rw [bump?, if_pos (by omega)]
  exact ⟨_, rfl⟩

theorem address_of_bump? (h : c.bump? l = some (address, d)) :
    address = roundUp (c.base + c.cursor) l.align ∧ address + l.size ≤ c.base + c.size := by
  have hle := le_roundUp (c.base + c.cursor) l.align_pos
  simp only [bump?] at h
  split at h
  · cases h
    exact ⟨rfl, by omega⟩
  · cases h

theorem roundUp_base_le {base : Nat} (h : chunkAlign ∣ base) (l : Layout) :
    roundUp base l.align ≤ base + (l.align - chunkAlign) := by
  rcases l.align_dvd_or_dvd 4 with hdvd | hdvd
  · rw [roundUp_of_dvd l.align_pos (Nat.dvd_trans hdvd h)]
    exact Nat.le_add_right _ _
  · have hlt := roundUp_lt base l.align_pos
    obtain ⟨x, hx⟩ := Nat.dvd_trans hdvd (dvd_roundUp base l.align)
    obtain ⟨y, hy⟩ := h
    obtain ⟨z, hz⟩ := hdvd
    -- the gap is a multiple of `chunkAlign` below the alignment
    rw [chunkAlign] at *
    omega

end Chunk

namespace Arena

def HasRoom (a : Arena) (l : Layout) (address : Nat) : Prop :=
  ∃ c rest, a.chunks = c :: rest ∧ address = roundUp (c.base + c.cursor) l.align ∧
    address + l.size ≤ c.base + c.size

def Exceeds (a : Arena) (l : Layout) (limit : Nat) : Prop :=
  a.config.maxBytes = some limit ∧ limit - a.capacity < needed l

/-- The size of the fresh chunk to ask for: that of the growth of the arena, as far as the limit leaves it. -/
def freshSize (a : Arena) (l : Layout) : Nat :=
  let size := a.config.nextChunkSize (a.chunks.head?.map Chunk.size) (needed l)
  a.config.maxBytes.elim size fun limit => min size (limit - a.capacity)

variable {a b : Arena} {l : Layout}

theorem HasRoom.unique {x y : Nat} (hx : a.HasRoom l x) (hy : a.HasRoom l y) : x = y := by
  obtain ⟨c, rest, hchunks, rfl, -⟩ := hx
  obtain ⟨d, others, hothers, rfl, -⟩ := hy
  obtain ⟨rfl, -⟩ := List.cons.inj (hchunks.symm.trans hothers)
  rfl

theorem Exceeds.unique {x y : Nat} (hx : a.Exceeds l x) (hy : a.Exceeds l y) : x = y :=
  Option.some.inj (hx.1.symm.trans hy.1)

theorem bumpNewest?_of_hasRoom {address : Nat} (h : a.HasRoom l address) : a.bumpNewest? l ≠ none := by
  obtain ⟨c, rest, hchunks, rfl, hle⟩ := h
  obtain ⟨d, hbump⟩ := Chunk.bump?_of_le hle
  rw [bumpNewest?, hchunks]
  simp only [hbump, Option.map_some, ne_eq, reduceCtorEq, not_false_eq_true]

theorem not_hasRoom_of_full (h : a.bumpNewest? l = none) (address : Nat) : ¬a.HasRoom l address :=
  fun hroom => bumpNewest?_of_hasRoom hroom h

section chunkSize

theorem chunkSizeFor_of_exceeds {limit : Nat} (h : a.Exceeds l limit) :
    a.chunkSizeFor l (needed l) = .error (.capacityExceeded l.size limit) := by
  obtain ⟨hlimit, hless⟩ := h
  simp only [chunkSizeFor, hlimit, if_pos hless]

theorem chunkSizeFor_of_within (h : ∀ limit, ¬a.Exceeds l limit) :
    a.chunkSizeFor l (needed l) = .ok (a.freshSize l) := by
  simp only [chunkSizeFor, freshSize]
  cases hlimit : a.config.maxBytes with
  | none => rfl
  | some limit => exact if_neg fun hless => h limit ⟨hlimit, hless⟩

theorem within_of_sized {size : Nat} (h : a.chunkSizeFor l (needed l) = .ok size) :
    (∀ limit, ¬a.Exceeds l limit) ∧ size = a.freshSize l := by
  have hwithin : ∀ limit, ¬a.Exceeds l limit := by
    intro limit hexceeds
    rw [chunkSizeFor_of_exceeds hexceeds] at h
    cases h
  rw [chunkSizeFor_of_within hwithin] at h
  exact ⟨hwithin, (Except.ok.inj h).symm⟩

theorem exceeds_of_not_sized {e : ArenaError} (h : a.chunkSizeFor l (needed l) = .error e) :
    ∃ limit, a.Exceeds l limit ∧ e = .capacityExceeded l.size limit := by
  by_contra hnone
  have hwithin : ∀ limit, ¬a.Exceeds l limit := by
    intro limit hexceeds
    rw [chunkSizeFor_of_exceeds hexceeds] at h
    exact hnone ⟨limit, hexceeds, (Except.error.inj h).symm⟩
  rw [chunkSizeFor_of_within hwithin] at h
  cases h

theorem needed_le_freshSize (h : ∀ limit, ¬a.Exceeds l limit) : needed l ≤ a.freshSize l := by
  have hnext : needed l ≤ a.config.nextChunkSize (a.chunks.head?.map Chunk.size) (needed l) := Nat.le_max_right _ _
  rw [freshSize]
  cases hlimit : a.config.maxBytes with
  | none => exact hnext
  | some limit => exact Nat.le_min.mpr ⟨hnext, Nat.not_lt.mp fun hless => h limit ⟨hlimit, hless⟩⟩

theorem bump?_fresh {base : Nat} (hbase : chunkAlign ∣ base) (h : ∀ limit, ¬a.Exceeds l limit) :
    ∃ d, Chunk.bump? ⟨base, a.freshSize l, 0⟩ l = some (roundUp base l.align, d) := by
  refine Chunk.bump?_of_le (c := ⟨base, a.freshSize l, 0⟩) ?_
  have hpadding := Chunk.roundUp_base_le hbase l
  have hneeded := needed_le_freshSize h
  rw [needed] at hneeded
  dsimp only [Nat.add_zero]
  omega

end chunkSize

theorem needed_lt_sizeLimit (l : Layout) : needed l < sizeLimit := by
  have hsize := l.size_le
  change l.size + (l.align - 1) ≤ 2 ^ 63 - 1 at hsize
  change l.size + (l.align - 16) < 2 ^ 64
  omega

/-- A request for the layout ends so in one of four ways, told apart by what the arena and the allocator have. -/
inductive Decides (a : Arena) (l : Layout) : Except ArenaError Nat → Arena → Prop
  | newest {address : Nat} {b : Arena} (room : a.HasRoom l address) (count : b.chunkCount = a.chunkCount) :
      Decides a l (.ok address) b
  | limited {limit : Nat} {b : Arena} (full : ∀ address, ¬a.HasRoom l address) (exceeds : a.Exceeds l limit) :
      Decides a l (.error (.capacityExceeded l.size limit)) b
  | refused {b : Arena} (full : ∀ address, ¬a.HasRoom l address) (within : ∀ limit, ¬a.Exceeds l limit)
      (placed : a.place? (a.freshSize l) = none) : Decides a l (.error (.outOfMemory (a.freshSize l))) b
  | fresh {base : Nat} {b : Arena} (full : ∀ address, ¬a.HasRoom l address) (within : ∀ limit, ¬a.Exceeds l limit)
      (placed : a.place? (a.freshSize l) = some base) (count : b.chunkCount = a.chunkCount + 1) :
      Decides a l (.ok (roundUp base l.align)) b

theorem dvd_of_place? (h : ChunkSource.Aligned a.source) {size base : Nat} (hplace : a.place? size = some base) :
    chunkAlign ∣ base := by
  rw [place?] at hplace
  split at hplace
  · exact h _ _ _ _ hplace
  · cases hplace

theorem Reserves.decides {result : Except ArenaError Nat} (h : ChunkSource.Aligned a.source) (asked : l.size ≠ 0)
    (hr : a.Reserves l result b) : a.Decides l result b := by
  cases hr with
  | empty none_asked => exact absurd none_asked asked
  | fits _ newest bumped =>
      have hcount : a.chunkCount = List.length (_ :: _) := congrArg List.length newest
      exact .newest ⟨_, _, newest, Chunk.address_of_bump? bumped⟩ hcount.symm
  | overflows _ _ too_large => exact absurd too_large (Nat.not_le.mpr (needed_lt_sizeLimit l))
  | limited _ full sized =>
      obtain ⟨limit, hexceeds, rfl⟩ := exceeds_of_not_sized sized
      exact .limited (not_hasRoom_of_full full) hexceeds
  | refused _ full sized placed =>
      obtain ⟨hwithin, rfl⟩ := within_of_sized sized
      exact .refused (not_hasRoom_of_full full) hwithin placed
  | grows _ full sized placed bumped =>
      obtain ⟨hwithin, rfl⟩ := within_of_sized sized
      obtain ⟨rfl, -⟩ := Chunk.address_of_bump? bumped
      exact .fresh (not_hasRoom_of_full full) hwithin placed rfl
  | misfits _ full sized placed bumped =>
      obtain ⟨hwithin, rfl⟩ := within_of_sized sized
      obtain ⟨d, hbump⟩ := bump?_fresh (dvd_of_place? h placed) hwithin
      rw [hbump] at bumped
      cases bumped

structure Settles (a : Arena) (l : Layout) (result : Except ArenaError Nat) (b : Arena) : Prop where
  newest : ∀ address, (result = .ok address ∧ b.chunkCount = a.chunkCount) ↔ a.HasRoom l address
  limited : ∀ requested limit, result = .error (.capacityExceeded requested limit) ↔
    requested = l.size ∧ (∀ address, ¬a.HasRoom l address) ∧ a.Exceeds l limit
  refused : ∀ bytes, result = .error (.outOfMemory bytes) ↔
    (∀ address, ¬a.HasRoom l address) ∧ (∀ limit, ¬a.Exceeds l limit) ∧
      bytes = a.freshSize l ∧ a.place? bytes = none
  fresh : ∀ address, (result = .ok address ∧ b.chunkCount = a.chunkCount + 1) ↔
    (∀ other, ¬a.HasRoom l other) ∧ (∀ limit, ¬a.Exceeds l limit) ∧
      ∃ base, a.place? (a.freshSize l) = some base ∧ address = roundUp base l.align
  no_overflow : ∀ count elementSize, result ≠ .error (.layoutOverflow count elementSize)

theorem Decides.settles {result : Except ArenaError Nat} (h : a.Decides l result b) : a.Settles l result b where
  newest address := by
    constructor
    · rintro ⟨rfl, hsame⟩
      cases h with
      | newest room => exact room
      | fresh _ _ _ count => omega
    · intro hroom
      cases h with
      | newest room count => exact ⟨by rw [room.unique hroom], count⟩
      | limited full | refused full | fresh full => exact absurd hroom (full address)
  limited requested limit := by
    constructor
    · rintro rfl
      cases h with
      | limited full exceeds => exact ⟨rfl, full, exceeds⟩
    · rintro ⟨rfl, hfull, hexceeds⟩
      cases h with
      | newest room => exact absurd room (hfull _)
      | limited _ exceeds => rw [exceeds.unique hexceeds]
      | refused _ within | fresh _ within => exact absurd hexceeds (within limit)
  refused bytes := by
    constructor
    · rintro rfl
      cases h with
      | refused full within placed => exact ⟨full, within, rfl, placed⟩
    · rintro ⟨hfull, hwithin, rfl, hrefused⟩
      cases h with
      | newest room => exact absurd room (hfull _)
      | limited _ exceeds => exact absurd exceeds (hwithin _)
      | refused => rfl
      | fresh _ _ placed =>
          rw [hrefused] at placed
          cases placed
  fresh address := by
    constructor
    · rintro ⟨rfl, hmore⟩
      cases h with
      | newest _ count => omega
      | fresh full within placed => exact ⟨full, within, _, placed, rfl⟩
    · rintro ⟨hfull, hwithin, base, hplaced, rfl⟩
      cases h with
      | newest room => exact absurd room (hfull _)
      | limited _ exceeds => exact absurd exceeds (hwithin _)
      | refused _ _ placed =>
          rw [hplaced] at placed
          cases placed
      | fresh _ _ placed count =>
          cases hplaced.symm.trans placed
          exact ⟨rfl, count⟩
  no_overflow count elementSize := by
    rintro rfl
    cases h

theorem Reserves.ne_overflow {result : Except ArenaError Nat} (hr : a.Reserves l result b) (count elementSize : Nat) :
    result ≠ .error (.layoutOverflow count elementSize) := by
  intro h
  cases hr with
  | empty | fits | grows | refused | misfits => cases h
  | overflows _ _ too_large => exact absurd too_large (Nat.not_le.mpr (needed_lt_sizeLimit l))
  | limited _ _ sized =>
      obtain ⟨limit, -, rfl⟩ := exceeds_of_not_sized sized
      cases h

theorem HasRoom.padded_lt {address : Nat} (h : a.HasRoom l address) (asked : l.size ≠ 0) {c : Chunk}
    {rest : List Chunk} (hchunks : a.chunks = c :: rest) (hspace : c.base + c.size ≤ sizeLimit) :
    c.base + c.cursor + (l.align - 1) < sizeLimit := by
  obtain ⟨d, others, hothers, rfl, hle⟩ := h
  obtain ⟨rfl, -⟩ := List.cons.inj (hchunks.symm.trans hothers)
  obtain ⟨d, hbump⟩ := Chunk.bump?_of_le hle
  exact (Chunk.bumps_of_bump? hbump).padded_lt asked hspace

theorem Undergoes.source {action : ScratchAction} {blocks : List Block} (hu : a.Undergoes action blocks b) :
    b.source = a.source := by
  cases hu with
  | reserves _ reserved => cases reserved <;> rfl
  | rests | resets => rfl

end Arena

theorem ElementType.align_le (t : ElementType) : t.align ≤ 32 := by
  have hlog : t.alignLog ≤ 5 := by
    induction t with
    | unsigned w | signed w => cases w <;> decide
    | float32 | float64 | block => decide
    | array item _ ih => exact ih
  rw [align, Nat.one_shiftLeft]
  exact Nat.pow_le_pow_right (by decide) hlog

theorem Layout.array?_eq_none {t : ElementType} {count : Nat} :
    array? t count = none ↔ maxBlockSize - (t.align - 1) < count * t.size := by
  have halign : t.align - 1 ≤ maxBlockSize := Nat.le_trans (Nat.sub_le _ 1) (Nat.le_trans t.align_le (by decide))
  rw [array?, ofSize?]
  change (if h : count * t.size + (t.align - 1) ≤ maxBlockSize then _ else _) = none ↔ _
  split
  · refine ⟨fun h => ?_, fun h => ?_⟩
    · cases h
    · omega
  · exact ⟨fun _ => by omega, fun _ => rfl⟩

theorem Arena.reserveArray_eq_overflow (a : Arena) (t : ElementType) (count n size : Nat) :
    (a.reserveArray t count).1 = .error (.layoutOverflow n size) ↔
      n = count ∧ size = t.size ∧ maxBlockSize - (t.align - 1) < count * t.size := by
  rw [reserveArray, ← Layout.array?_eq_none]
  cases Layout.array? t count with
  | none => simp [eq_comm]
  | some l => simpa using (a.reserves_reserve l).ne_overflow n size

namespace Scratch

theorem source_run (s : Scratch) (actions : List ScratchAction) : (s.run actions).2.arena.source = s.arena.source := by
  induction actions generalizing s with
  | nil => rfl
  | cons a rest ih => exact (ih _).trans (s.step_undergoes a).source

/-- In every state that an arena can get into, a request for a block of any size and alignment is served from the newest
chunk just when it fits there; else it is refused for the limit just when this leaves less than the block needs with its
padding; else it is refused for lack of memory just when the allocator has no chunk of the size that is asked for; else
it is served from the fresh chunk. It never fails otherwise, and no sum on the way leaves the words. An array is refused
as too large just when no layout has its size. -/
theorem run_settles (config : ArenaConfig) (source : ChunkSource) (actions : List ScratchAction) :
    let s := ((Scratch.new config source).run actions).2
    ChunkSource.Aligned source →
    (∀ l : Layout, l.size ≠ 0 →
      s.arena.Settles l (s.arena.reserve l).1 (s.arena.reserve l).2 ∧
      ∀ c rest address, s.arena.chunks = c :: rest → c.base + c.size ≤ sizeLimit → s.arena.HasRoom l address →
        c.base + c.cursor + (l.align - 1) < sizeLimit) ∧
    (∀ t count n size, (s.step (.allocZeroed true t count)).1 = .refused (.layoutOverflow n size) ↔
      n = count ∧ size = t.size ∧ maxBlockSize - (t.align - 1) < count * t.size) ∧
    ∀ t values n size, (s.step (.allocCopy t values)).1 = .fault (.scratch (.layoutOverflow n size)) ↔
      n = values.length ∧ size = t.size ∧ maxBlockSize - (t.align - 1) < values.length * t.size := by
  intro s haligned
  have hsource : s.arena.source = source := source_run (Scratch.new config source) actions
  rw [← hsource] at haligned
  refine ⟨fun l asked => ⟨?_, fun c rest address hchunks hspace hroom => hroom.padded_lt asked hchunks hspace⟩,
    fun t count n size => ?_, fun t values n size => ?_⟩
  · exact ((s.arena.reserves_reserve l).decides haligned asked).settles
  · rw [step, answerAlloc_eq_refused, allocZeroed, allocWith_eq_error, Arena.reserveArray_eq_overflow]
  · rw [step, answerAlloc_eq_fault]
    simp only [Fault.scratch.injEq, exists_eq_right', allocCopy, allocWith_eq_error, Arena.reserveArray_eq_overflow,
      List.length_map]

/-- The limit leaves 36 bytes: enough for a block of 20 in a chunk of its own, too few for a block of 40. -/
theorem limit_leaves_small_chunk :
    let s := ((Scratch.new ⟨64, some 100⟩ AddressSpace.placeChunk).run [.reserve ⟨40, 5, by decide⟩]).2
    ChunkSource.Aligned AddressSpace.placeChunk ∧
      (s.arena.reserve ⟨40, 4, by decide⟩).1 = .error (.capacityExceeded 40 100) ∧
      (s.arena.reserve ⟨20, 4, by decide⟩).1 = .ok 0x301000010 := by
  intro s
  have haligned := AddressSpace.aligned_placeChunk
  obtain ⟨hsettles, -⟩ := run_settles ⟨64, some 100⟩ AddressSpace.placeChunk [.reserve ⟨40, 5, by decide⟩] haligned
  have hlarge := (hsettles ⟨40, 4, by decide⟩ (by decide)).1
  have hsmall := (hsettles ⟨20, 4, by decide⟩ (by decide)).1
  have hchunks : s.arena.chunks = [⟨0x300000010, 64, 56⟩] := by decide +kernel
  have hcapacity : s.arena.capacity = 64 := by rw [Arena.capacity, hchunks]; rfl
  have hfull : ∀ l : Layout, 8 < l.size → ∀ address, ¬s.arena.HasRoom l address := by
    rintro l hsize address ⟨c, rest, hnewest, rfl, hle⟩
    rw [hchunks] at hnewest
    cases hnewest
    have hlow := le_roundUp (0x300000010 + 56) l.align_pos
    dsimp only at hle
    omega
  refine ⟨haligned, (hlarge.limited 40 100).mpr ⟨rfl, hfull _ (by decide), rfl, by rw [hcapacity]; decide⟩, ?_⟩
  refine ((hsmall.fresh 0x301000010).mpr ⟨hfull _ (by decide), ?_, 0x301000010, rfl, by decide⟩).1
  rintro limit ⟨hlimit, hless⟩
  cases hlimit
  rw [hcapacity] at hless
  exact absurd hless (by decide)

end Scratch

end CallCapture
