import CallCapture.Arena.Lemmas
import Mathlib.Data.List.Pairwise

namespace CallCapture

def Chunk.Apart (c d : Chunk) : Prop := c.base + c.size ≤ d.base ∨ d.base + d.size ≤ c.base

structure Block where
  address : Nat
  size : Nat
  align : Nat

namespace Block

def Apart (b d : Block) : Prop := b.address + b.size ≤ d.address ∨ d.address + d.size ≤ b.address

def In (b : Block) (c : Chunk) : Prop := c.base ≤ b.address ∧ b.address + b.size ≤ c.base + c.cursor

end Block

/-- The chunks host the blocks that hold any bytes. -/
structure Hosts (chunks : List Chunk) (blocks : List Block) : Prop where
  cursor_le : ∀ c ∈ chunks, c.cursor ≤ c.size
  chunks_apart : chunks.Pairwise Chunk.Apart
  aligned : ∀ b ∈ blocks, b.size ≠ 0 → b.align ∣ b.address
  inside : ∀ b ∈ blocks, b.size ≠ 0 → ∃ c ∈ chunks, b.In c
  apart : blocks.Pairwise fun b d => b.size ≠ 0 → d.size ≠ 0 → b.Apart d

def Layout.blocks (l : Layout) : Except ArenaError Nat → List Block
  | .ok address => [⟨address, l.size, l.align⟩]
  | .error _ => []

namespace Hosts

variable {chunks rest : List Chunk} {blocks : List Block} {c d : Chunk} {l : Layout} {address : Nat}

theorem nil : Hosts [] [] := ⟨nofun, .nil, nofun, nofun, .nil⟩

theorem append_empty (h : Hosts chunks blocks) {b : Block} (hb : b.size = 0) : Hosts chunks (blocks ++ [b]) where
  cursor_le := h.cursor_le
  chunks_apart := h.chunks_apart
  aligned := by
    intro d hd hne
    rcases List.mem_append.mp hd with hd | hd
    · exact h.aligned d hd hne
    · rw [List.mem_singleton.mp hd] at hne
      exact absurd hb hne
  inside := by
    intro d hd hne
    rcases List.mem_append.mp hd with hd | hd
    · exact h.inside d hd hne
    · rw [List.mem_singleton.mp hd] at hne
      exact absurd hb hne
  apart := by
    refine List.pairwise_append.mpr ⟨h.apart, List.pairwise_singleton _ _, fun d _ e he _ hne => ?_⟩
    rw [List.mem_singleton.mp he] at hne
    exact absurd hb hne

theorem cons_fresh (h : Hosts chunks blocks) {base size : Nat}
    (hfree : ∀ c ∈ chunks, Chunk.Apart ⟨base, size, 0⟩ c) : Hosts (⟨base, size, 0⟩ :: chunks) blocks where
  cursor_le := List.forall_mem_cons.mpr ⟨Nat.zero_le _, h.cursor_le⟩
  chunks_apart := List.pairwise_cons.mpr ⟨hfree, h.chunks_apart⟩
  aligned := h.aligned
  inside := by
    intro b hb hne
    obtain ⟨c, hc, hbc⟩ := h.inside b hb hne
    exact ⟨c, List.mem_cons_of_mem _ hc, hbc⟩
  apart := h.apart

theorem apart_of_bumps (h : Hosts (c :: rest) blocks) (hbump : c.Bumps l address d) {b : Block} (hb : b ∈ blocks)
    (hne : b.size ≠ 0) : b.Apart ⟨address, l.size, l.align⟩ := by
  obtain ⟨hfree, -⟩ := List.pairwise_cons.mp h.chunks_apart
  obtain ⟨e, he, hbe⟩ := h.inside b hb hne
  have hcursor := h.cursor_le e he
  have hlow := hbump.cursor_le
  have hstop := hbump.stop
  have hfits := hbump.fits
  have hbase := hbump.base
  have hsize := hbump.size
  simp only [Block.In] at hbe
  simp only [Block.Apart]
  -- an older block is in the same chunk, below its cursor, or in another chunk
  rcases List.mem_cons.mp he with rfl | he
  · omega
  · have hapart := hfree e he
    simp only [Chunk.Apart] at hapart
    omega

theorem bump (h : Hosts (c :: rest) blocks) (hbump : c.Bumps l address d) :
    Hosts (d :: rest) (blocks ++ [⟨address, l.size, l.align⟩]) where
  cursor_le := by
    obtain ⟨-, hrest⟩ := List.forall_mem_cons.mp h.cursor_le
    exact List.forall_mem_cons.mpr ⟨hbump.fits, hrest⟩
  chunks_apart := by
    obtain ⟨hfree, hrest⟩ := List.pairwise_cons.mp h.chunks_apart
    refine List.pairwise_cons.mpr ⟨fun e he => ?_, hrest⟩
    rw [Chunk.Apart, hbump.base, hbump.size]
    exact hfree e he
  aligned := by
    intro b hb hne
    rcases List.mem_append.mp hb with hb | hb
    · exact h.aligned b hb hne
    · rw [List.mem_singleton.mp hb]
      exact hbump.aligned
  inside := by
    have hlow := hbump.cursor_le
    have hstop := hbump.stop
    have hbase := hbump.base
    intro b hb hne
    rcases List.mem_append.mp hb with hb | hb
    · obtain ⟨e, he, hbe⟩ := h.inside b hb hne
      rcases List.mem_cons.mp he with rfl | he
      · refine ⟨d, List.mem_cons_self, ?_⟩
        simp only [Block.In] at hbe ⊢
        omega
      · exact ⟨e, List.mem_cons_of_mem d he, hbe⟩
    · refine ⟨d, List.mem_cons_self, ?_⟩
      rw [List.mem_singleton.mp hb]
      simp only [Block.In]
      omega
  apart := by
    refine List.pairwise_append.mpr ⟨h.apart, List.pairwise_singleton _ _, fun b hb e he hne _ => ?_⟩
    rw [List.mem_singleton.mp he]
    exact h.apart_of_bumps hbump hb hne

theorem reset (h : Hosts chunks blocks) :
    Hosts ((chunks.take 1).map fun c => { c with cursor := 0 }) [] where
  cursor_le := by
    intro c hc
    obtain ⟨d, -, rfl⟩ := List.mem_map.mp hc
    exact Nat.zero_le _
  chunks_apart := by
    rw [List.pairwise_map]
    exact h.chunks_apart.sublist (List.take_sublist 1 chunks)
  aligned := nofun
  inside := nofun
  apart := .nil

end Hosts

/-- The next chunk, whatever its size, is placed in memory that the arena does not hold. -/
def Arena.Served (a : Arena) : Prop :=
  ∀ size base, a.place? size = some base → ∀ c ∈ a.chunks, Chunk.Apart ⟨base, size, 0⟩ c

theorem Arena.Reserves.hosts {a b : Arena} {l : Layout} {result : Except ArenaError Nat} {blocks : List Block}
    (hr : a.Reserves l result b) (h : Hosts a.chunks blocks) (hserved : a.Served) :
    Hosts b.chunks (blocks ++ l.blocks result) := by
  cases hr with
  | empty none_asked => exact h.append_empty none_asked
  | fits asked newest bumped =>
      rw [newest] at h
      exact h.bump (Chunk.bumps_of_bump? bumped)
  | grows asked full sized placed bumped =>
      exact (h.cons_fresh (hserved _ _ placed)).bump (Chunk.bumps_of_bump? bumped)
  | overflows | limited | refused | misfits =>
      rw [Layout.blocks, List.append_nil]
      exact h

end CallCapture
