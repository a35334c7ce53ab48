import CallCapture.Arena.Basic
import CallCapture.Layout.Lemmas

namespace CallCapture

/-- `d` is `c` after a block of the layout was taken from it at `address`. -/
structure Chunk.Bumps (c : Chunk) (l : Layout) (address : Nat) (d : Chunk) : Prop where
  aligned : l.align ∣ address
  cursor_le : c.base + c.cursor ≤ address
  address_lt : address < c.base + c.cursor + l.align
  stop : d.base + d.cursor = address + l.size
  fits : d.cursor ≤ d.size
  base : d.base = c.base
  size : d.size = c.size

theorem Chunk.bumps_of_bump? {c d : Chunk} {l : Layout} {address : Nat} (h : c.bump? l = some (address, d)) :
    c.Bumps l address d := by
  have hle := le_roundUp (c.base + c.cursor) l.align_pos
  simp only [bump?] at h
  split at h
  · rename_i hfits
    cases h
    exact {
      aligned := dvd_roundUp _ _
      cursor_le := hle
      address_lt := roundUp_lt _ l.align_pos
      stop := by dsimp only; omega
      fits := hfits
      base := rfl
      size := rfl }
  · cases h

/-- On the way to a block that fits, no sum leaves the words of 64 bits: a chunk has no room for what does. -/
theorem Chunk.Bumps.padded_lt {c d : Chunk} {l : Layout} {address : Nat} (h : c.Bumps l address d)
    (asked : l.size ≠ 0) (hchunk : c.base + c.size ≤ sizeLimit) : c.base + c.cursor + (l.align - 1) < sizeLimit := by
  have hlow := h.cursor_le
  have hstop := h.stop
  have hfits := h.fits
  have hbase := h.base
  have hsize := h.size
  have hpos := l.align_pos
  have hlt : address < sizeLimit := by omega
  have hnext := Nat.le_of_dvd (Nat.sub_pos_of_lt hlt) (Nat.dvd_sub l.align_dvd_sizeLimit h.aligned)
  omega

namespace Arena

/-- The bytes that a fresh chunk needs for the layout wherever the allocator places it. -/
def needed (l : Layout) : Nat := l.size + (l.align - chunkAlign)

def place? (a : Arena) (size : Nat) : Option Nat :=
  if size + (chunkAlign - 1) ≤ maxBlockSize then a.source a.granted a.refused size else none

inductive Reserves (a : Arena) (l : Layout) : Except ArenaError Nat → Arena → Prop
  | empty (none_asked : l.size = 0) : Reserves a l (.ok l.align) a
  | fits {c d : Chunk} {rest : List Chunk} {address : Nat} (asked : l.size ≠ 0) (newest : a.chunks = c :: rest)
      (bumped : c.bump? l = some (address, d)) : Reserves a l (.ok address) { a with chunks := d :: rest }
  | grows {size base address : Nat} {d : Chunk} (asked : l.size ≠ 0) (full : a.bumpNewest? l = none)
      (sized : a.chunkSizeFor l (needed l) = .ok size) (placed : a.place? size = some base)
      (bumped : Chunk.bump? ⟨base, size, 0⟩ l = some (address, d)) :
      Reserves a l (.ok address) { a with granted := a.granted + 1, chunks := d :: a.chunks }
  | overflows (asked : l.size ≠ 0) (full : a.bumpNewest? l = none) (too_large : sizeLimit ≤ needed l) :
      Reserves a l (.error (.layoutOverflow 1 l.size)) a
  | limited {e : ArenaError} (asked : l.size ≠ 0) (full : a.bumpNewest? l = none)
      (sized : a.chunkSizeFor l (needed l) = .error e) : Reserves a l (.error e) a
  | refused {size : Nat} (asked : l.size ≠ 0) (full : a.bumpNewest? l = none)
      (sized : a.chunkSizeFor l (needed l) = .ok size) (placed : a.place? size = none) :
      Reserves a l (.error (.outOfMemory size)) { a with refused := a.refused + 1 }
  | misfits {size base : Nat} (asked : l.size ≠ 0) (full : a.bumpNewest? l = none)
      (sized : a.chunkSizeFor l (needed l) = .ok size) (placed : a.place? size = some base)
      (bumped : Chunk.bump? ⟨base, size, 0⟩ l = none) :
      Reserves a l (.error (.capacityExceeded l.size size)) { a with granted := a.granted + 1 }

variable {a b : Arena} {l : Layout}

theorem obtain?_of_placed {size base : Nat} (h : a.place? size = some base) :
    a.obtain? size = (some ⟨base, size, 0⟩, { a with granted := a.granted + 1 }) := by
  rw [place?] at h
  rw [obtain?, h]

theorem obtain?_of_refused {size : Nat} (h : a.place? size = none) :
    a.obtain? size = (none, { a with refused := a.refused + 1 }) := by
  rw [place?] at h
  rw [obtain?, h]

theorem reserves_grow (asked : l.size ≠ 0) (full : a.bumpNewest? l = none) :
    a.Reserves l (a.grow l).1 (a.grow l).2 := by
  rw [grow]
  by_cases hlarge : sizeLimit ≤ needed l
  · rw [needed] at hlarge
    rw [if_pos hlarge]
    exact .overflows asked full hlarge
  · rw [needed] at hlarge
    rw [if_neg hlarge]
    cases hsize : a.chunkSizeFor l (l.size + (l.align - chunkAlign)) with
    | error e => exact .limited asked full hsize
    | ok size =>
        dsimp only
        cases hplace : a.place? size with
        | none =>
            rw [obtain?_of_refused hplace]
            exact .refused asked full hsize hplace
        | some base =>
            rw [obtain?_of_placed hplace]
            dsimp only
            cases hbump : Chunk.bump? ⟨base, size, 0⟩ l with
            | none => exact .misfits asked full hsize hplace hbump
            | some p => exact .grows asked full hsize hplace hbump

theorem reserves_reserve (a : Arena) (l : Layout) : a.Reserves l (a.reserve l).1 (a.reserve l).2 := by
  rw [reserve]
  by_cases hsize : l.size = 0
  · rw [if_pos hsize]
    exact .empty hsize
  · rw [if_neg hsize]
    cases hnewest : a.bumpNewest? l with
    | none => exact reserves_grow hsize hnewest
    | some p =>
        rw [bumpNewest?] at hnewest
        cases hchunks : a.chunks with
        | nil =>
            rw [hchunks] at hnewest
            cases hnewest
        | cons c rest =>
            rw [hchunks] at hnewest
            obtain ⟨q, hbump, rfl⟩ := Option.map_eq_some_iff.mp hnewest
            exact .fits hsize hchunks hbump

end Arena

end CallCapture
