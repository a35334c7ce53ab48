import CallCapture.Process

namespace CallCapture

/-- The region lies in the pool behind it, from the pool's first byte on, and the pool is one of those made. -/
def Region.BackedBy (r : Region) (made : List Pool) : Prop :=
  ∀ p, r.backing = some p → p ∈ made ∧ r.base = p.base ∧ r.byteLength ≤ p.size ∧ r.owner = .tool p.id

theorem Region.BackedBy.mono {r : Region} {made more : List Pool} (h : r.BackedBy made) (hmore : made ⊆ more) :
    r.BackedBy more := by
  intro p hp
  obtain ⟨hmem, hr⟩ := h p hp
  exact ⟨hmore hmem, hr⟩

theorem Region.backedBy_of_none {r : Region} (h : r.backing = none) (made : List Pool) : r.BackedBy made := by
  intro p hp
  rw [h] at hp
  cases hp

namespace View

variable {t : ElementType} {pool : Pool} {count : Nat} {v : View t}

theorem backedBy_of_overPool (h : overPool t pool count = .ok v) (hcount : count * t.size ≤ pool.size)
    {made : List Pool} (hmade : pool ∈ made) : v.region.BackedBy made := by
  rw [overPool] at h
  split at h
  · cases h
  · cases h
    intro p hp
    cases hp
    exact ⟨hmade, rfl, hcount, rfl⟩

theorem backedBy_of_ofPool (h : ofPool t pool = .ok v) {made : List Pool} (hmade : pool ∈ made) :
    v.region.BackedBy made :=
  backedBy_of_overPool h (Nat.div_mul_le_self pool.size t.size) hmade

theorem backing_of_ofPool (h : ofPool t pool = .ok v) : v.backing ≠ none := by
  rw [ofPool, overPool] at h
  split at h
  · cases h
  · cases h
    exact nofun

end View

def Pools.Grows (made more : List Pool) : Prop :=
  ∃ fresh, more = made ++ fresh ∧ ∀ p ∈ fresh, made.length ≤ p.serial ∧ p.serial < more.length

namespace Pools.Grows

variable {made more most : List Pool}

theorem refl (made : List Pool) : Grows made made := ⟨[], (List.append_nil made).symm, nofun⟩

theorem of_eq (h : more = made) : Grows made more := h ▸ refl made

theorem snoc {pool : Pool} (serial : pool.serial = made.length) (h : more = made ++ [pool]) : Grows made more := by
  refine ⟨[pool], h, fun p hp => ?_⟩
  obtain rfl := List.mem_singleton.mp hp
  rw [h, List.length_append, List.length_singleton]
  omega

theorem kept (h : Grows made more) : made <+: more := by
  obtain ⟨fresh, rfl, -⟩ := h
  exact List.prefix_append made fresh

theorem fresh_serial (h : Grows made more) {p : Pool} (hp : p ∈ more.drop made.length) : made.length ≤ p.serial := by
  obtain ⟨fresh, rfl, hfresh⟩ := h
  rw [List.drop_left] at hp
  exact (hfresh p hp).1

theorem trans (h : Grows made more) (h' : Grows more most) : Grows made most := by
  have hlength := h.kept.length_le
  have hlength' := h'.kept.length_le
  obtain ⟨fresh, hmore, hfresh⟩ := h
  obtain ⟨fresh', hmost, hfresh'⟩ := h'
  refine ⟨fresh ++ fresh', by rw [hmost, hmore, List.append_assoc], fun p hp => ?_⟩
  rcases List.mem_append.mp hp with hp | hp
  · have hp := hfresh p hp
    omega
  · have hp := hfresh' p hp
    omega

end Pools.Grows

namespace Pools

variable {size : Nat}

theorem create_of_lt (ps : Pools) (h : maxBlockSize < size + (poolAlign - 1)) :
    ps.create size = (.error (.poolOverflow size), ps.takeId.2) := if_pos h

theorem create_of_le (ps : Pools) (h : size + (poolAlign - 1) ≤ maxBlockSize) :
    ∃ pool pools, ps.create size = (.ok pool, pools) ∧ pool.serial = ps.made.length ∧ pool.size = size ∧
      pools.made = ps.made ++ [pool] := ⟨_, _, if_neg (Nat.not_lt.mpr h), rfl, rfl, rfl⟩

end Pools

namespace Process

theorem byteAt_clear_of_outside (m : Memory) {pool : Pool} {x : Nat} (h : x < pool.base ∨ pool.base + pool.size ≤ x) :
    (clear m pool).byteAt x = m.byteAt x := if_neg (by omega)

section createPool

variable {size : Nat}

theorem createPool_of_lt (p : Process) (h : maxBlockSize < size + (poolAlign - 1)) :
    p.createPool size = (.error (.poolOverflow size), { p with pools := p.pools.takeId.2 }) := by
  rw [createPool, Pools.create_of_lt p.pools h]

theorem createPool_of_le (p : Process) (h : size + (poolAlign - 1) ≤ maxBlockSize) :
    ∃ pool pools, p.createPool size = (.ok pool, ⟨clear p.memory pool, pools⟩) ∧
      pool.serial = p.pools.made.length ∧ pools.made = p.pools.made ++ [pool] := by
  obtain ⟨pool, pools, hcreate, hserial, -, hmade⟩ := p.pools.create_of_le h
  exact ⟨pool, pools, by rw [createPool, hcreate], hserial, hmade⟩

end createPool

/-- Why no view of `count` elements can be made over a pool of its own, if so. The sizes are looked at first, and the
alignment when the pool is there. -/
def makeFault? (t : ElementType) (count : Nat) : Option Fault :=
  if sizeLimit ≤ count * t.size then some (.viewOverflow count)
  else if maxBlockSize < count * t.size + (poolAlign - 1) then some (.poolOverflow (count * t.size))
  else if poolAlign < t.align then some (.overAligned t.align poolAlign)
  else none

theorem makeFault?_eq_none {t : ElementType} {count : Nat} (halign : t.align ≤ poolAlign)
    (hsize : count * t.size + (poolAlign - 1) ≤ maxBlockSize) : makeFault? t count = none := by
  have hlimit : maxBlockSize < sizeLimit := by decide
  rw [makeFault?, if_neg (by omega), if_neg (by omega), if_neg (by omega)]

inductive Makes (p : Process) (t : ElementType) (count : Nat) : Except Fault (View t) → Process → Prop
  | refused {f : Fault} {pools : Pools} (fault : makeFault? t count = some f) (made : pools.made = p.pools.made) :
      Makes p t count (.error f) { p with pools }
  | given_up {f : Fault} {pool : Pool} {pools : Pools} (fault : makeFault? t count = some f)
      (serial : pool.serial = p.pools.made.length) (made : pools.made = p.pools.made ++ [pool]) :
      Makes p t count (.error f) { p with pools }
  | viewed {pool : Pool} {pools : Pools} (fault : makeFault? t count = none) (size : pool.size = count * t.size)
      (serial : pool.serial = p.pools.made.length) (made : pools.made = p.pools.made ++ [pool]) :
      Makes p t count (.ok ⟨pool.base, count, .tool pool.id, some pool⟩) ⟨clear p.memory pool, pools⟩

theorem makes_make (p : Process) (t : ElementType) (count : Nat) :
    p.Makes t count (p.make t count).1 (p.make t count).2 := by
  rw [make]
  by_cases hview : sizeLimit ≤ count * t.size
  · rw [if_pos hview]
    exact .refused (by rw [makeFault?, if_pos hview]) rfl
  · rw [if_neg hview]
    by_cases hpool : maxBlockSize < count * t.size + (poolAlign - 1)
    · rw [Pools.create_of_lt p.pools hpool]
      exact .refused (by rw [makeFault?, if_neg hview, if_pos hpool]) rfl
    · obtain ⟨pool, pools, hcreate, hserial, hsize, hmade⟩ := p.pools.create_of_le (Nat.not_lt.mp hpool)
      rw [hcreate]
      dsimp only
      by_cases halign : poolAlign < t.align
      · rw [View.overPool, if_pos halign]
        exact .given_up (by rw [makeFault?, if_neg hview, if_neg hpool, if_pos halign]) hserial hmade
      · rw [View.overPool, if_neg halign]
        exact .viewed (by rw [makeFault?, if_neg hview, if_neg hpool, if_neg halign]) hsize hserial hmade

section makes

variable {p q : Process} {t : ElementType} {count : Nat} {result : Except Fault (View t)}

theorem Makes.grows (h : p.Makes t count result q) : Pools.Grows p.pools.made q.pools.made := by
  cases h with
  | refused _ made => exact .of_eq made
  | given_up _ serial made => exact .snoc serial made
  | viewed _ _ serial made => exact .snoc serial made

theorem Makes.result_eq_error (h : p.Makes t count result q) (f : Fault) :
    result = .error f ↔ makeFault? t count = some f := by
  cases h with
  | refused fault | given_up fault => rw [fault, Except.error.injEq, Option.some.injEq]
  | viewed fault =>
      rw [fault]
      exact ⟨nofun, nofun⟩

theorem grows_make (p : Process) (t : ElementType) (count : Nat) :
    Pools.Grows p.pools.made (p.make t count).2.pools.made := (p.makes_make t count).grows

theorem make_eq_error (p : Process) (t : ElementType) (count : Nat) (f : Fault) :
    (p.make t count).1 = .error f ↔ makeFault? t count = some f := (p.makes_make t count).result_eq_error f

theorem exists_pool_of_make {v : View t} (h : p.make t count = (.ok v, q)) :
    ∃ pool : Pool, v = ⟨pool.base, count, .tool pool.id, some pool⟩ ∧ pool.size = count * t.size ∧
      q.pools.made = p.pools.made ++ [pool] := by
  have hmakes := p.makes_make t count
  rw [h] at hmakes
  cases hmakes with
  | viewed _ size _ made => exact ⟨_, rfl, size, made⟩

theorem backedBy_of_make {v : View t} (h : p.make t count = (.ok v, q)) :
    v.region.BackedBy (q.pools.made.drop p.pools.made.length) := by
  obtain ⟨pool, rfl, hsize, hmade⟩ := exists_pool_of_make h
  intro r hr
  cases hr
  refine ⟨?_, rfl, Nat.le_of_eq hsize.symm, rfl⟩
  rw [hmade, List.drop_left]
  exact List.mem_cons_self

theorem backing_of_make {v : View t} (h : p.make t count = (.ok v, q)) : v.backing ≠ none := by
  obtain ⟨pool, rfl, -⟩ := exists_pool_of_make h
  exact nofun

theorem owner_of_make {v : View t} (h : p.make t count = (.ok v, q)) : v.owner ≠ .application := by
  obtain ⟨pool, rfl, -⟩ := exists_pool_of_make h
  exact nofun

end makes

end Process

end CallCapture
