import CallCapture.Proofs.Scratch.Run

namespace CallCapture

namespace Arena

/-- The chunks of `a` are still there, with no byte of their used part given back. -/
def Keeps (a b : Arena) : Prop :=
  ∀ c ∈ a.chunks, ∃ d ∈ b.chunks, d.base = c.base ∧ d.size = c.size ∧ c.cursor ≤ d.cursor

variable {a b : Arena}

theorem Keeps.refl (a : Arena) : a.Keeps a := fun c hc => ⟨c, hc, rfl, rfl, Nat.le_refl _⟩

theorem Keeps.trans {c : Arena} (hab : a.Keeps b) (hbc : b.Keeps c) : a.Keeps c := by
  intro x hx
  obtain ⟨y, hy, hbase, hsize, hcursor⟩ := hab x hx
  obtain ⟨z, hz, hbase', hsize', hcursor'⟩ := hbc y hy
  exact ⟨z, hz, hbase'.trans hbase, hsize'.trans hsize, Nat.le_trans hcursor hcursor'⟩

theorem Reserves.keeps {l : Layout} {result : Except ArenaError Nat} (hr : a.Reserves l result b) : a.Keeps b := by
  cases hr with
  | empty | overflows | limited | refused | misfits => exact .refl a
  | fits asked newest bumped =>
      have hbump := Chunk.bumps_of_bump? bumped
      intro x hx
      rw [newest] at hx
      rcases List.mem_cons.mp hx with rfl | hx
      · have hcursor := hbump.cursor_le
        have hstop := hbump.stop
        have hbase := hbump.base
        exact ⟨_, List.mem_cons_self, hbase, hbump.size, by omega⟩
      · exact ⟨x, List.mem_cons_of_mem _ hx, rfl, rfl, Nat.le_refl _⟩
  | grows => exact fun x hx => ⟨x, List.mem_cons_of_mem _ hx, rfl, rfl, Nat.le_refl _⟩

namespace Undergoes

variable {action : ScratchAction} {blocks given : List Block}

theorem keeps (hu : a.Undergoes action blocks b) (kept : action ≠ .reset) : a.Keeps b := by
  cases hu with
  | reserves _ reserved => exact reserved.keeps
  | rests => exact .refl a
  | resets reset => exact absurd reset kept

theorem hosts (hu : a.Undergoes action blocks b) (kept : action ≠ .reset) (h : Hosts a.chunks given)
    (hserved : a.Served) : Hosts b.chunks (given ++ blocks) := by
  cases hu with
  | reserves _ reserved => exact reserved.hosts h hserved
  | rests =>
      rw [List.append_nil]
      exact h
  | resets reset => exact absurd reset kept

end Undergoes

end Arena

def givenAfter (given : List Block) : ScratchAction × ScratchAnswer → List Block
  | (.reset, _) => []
  | (a, answer) => given ++ a.blocks answer

theorem givenAfter_of_kept {a : ScratchAction} (kept : a ≠ .reset) (given : List Block) (answer : ScratchAnswer) :
    givenAfter given (a, answer) = given ++ a.blocks answer := by
  cases a with
  | reset => exact absurd rfl kept
  | _ => rfl

namespace Scratch

def given (s : Scratch) (actions : List ScratchAction) : List Block := (s.transcript actions).foldl givenAfter []

theorem hosts_step (s : Scratch) (given : List Block) (a : ScratchAction) (h : Hosts s.arena.chunks given)
    (hserved : s.arena.Served) : Hosts (s.step a).2.arena.chunks (givenAfter given (a, (s.step a).1)) := by
  by_cases ha : a = .reset
  · subst ha
    exact h.reset
  · rw [givenAfter_of_kept ha]
    exact (s.step_undergoes a).hosts ha h hserved

theorem keeps_run (s : Scratch) {actions : List ScratchAction} (h : .reset ∉ actions) :
    s.arena.Keeps (s.run actions).2.arena := by
  induction actions generalizing s with
  | nil => exact .refl _
  | cons a rest ih =>
      have ha := List.ne_of_not_mem_cons h
      have hrest := List.not_mem_of_not_mem_cons h
      exact ((s.step_undergoes a).keeps ha.symm).trans (ih (s.step a).2 hrest)

/-- As long as the allocator never grants memory that is still held, all blocks handed out since the last reset, of
whatever size and alignment, are hosted by the chunks of the arena. No chunk moves or goes before the next reset. -/
theorem hosts_given (config : ArenaConfig) (source : ChunkSource) (actions : List ScratchAction) :
    let s := Scratch.new config source
    s.ServedThrough actions →
    Hosts (s.run actions).2.arena.chunks (s.given actions) ∧
    ∀ before after, actions = before ++ after → .reset ∉ after →
      (s.run before).2.arena.Keeps (s.run actions).2.arena := by
  intro s hserved
  constructor
  · exact run_tracks (fun s given => Hosts s.arena.chunks given) givenAfter hosts_step .nil hserved
  · rintro before after rfl hafter
    rw [run_append]
    exact (s.run before).2.keeps_run hafter

/-- Blocks aligned beyond what chunks are, the third of them in a chunk of its own. -/
theorem over_aligned_blocks_hosted :
    let s := Scratch.new ⟨64, some 4096⟩ AddressSpace.placeChunk
    let actions : List ScratchAction := [.alloc true (.unsigned .w8) (.integer 7), .reset,
      .alloc true (.unsigned .w8) (.integer 1), .reserve ⟨8, 5, by decide⟩, .allocZeroed true .block 3,
      .allocZeroed true .block 1000]
    Hosts (s.run actions).2.arena.chunks (s.given actions) ∧
      (s.given actions).map Block.address = [0x300000010, 0x300000020, 0x301000020] := by
  dsimp only
  exact ⟨(hosts_given _ _ _ (servedThrough_of_inSlots (.new _) _)).1, by decide +kernel⟩

end Scratch

end CallCapture
