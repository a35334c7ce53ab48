import CallCapture.Proofs.Wire.RoundTrip

namespace CallCapture

theorem Frame.wire_eq_cons (f : Frame) :
    f.wire = f.tag :: (Word.encode 4 f.payload.length ++ f.payload) := rfl

namespace Decoder

open Source

def frameAfter (tag : UInt8) : Decoder (Option Frame) := do
  let ⟨payload, _⟩ ← declared .payload (← word 4)
  pure (some ⟨tag, payload⟩)

theorem accepts_frameAfter (tag : UInt8) :
    Accepts (frameAfter tag) fun f w => ∃ payload, f = some ⟨tag, payload⟩ ∧ payload.length < 2 ^ 32 ∧
      w = Word.encode 4 payload.length ++ payload := by
  refine (Accepts.bind (accepts_word 4) fun n => Accepts.bind (Accepts.declared .payload n) fun payload =>
    Accepts.pure (some (Frame.mk tag payload.1))).congr fun f w => ?_
  constructor
  · rintro ⟨n, _, _, ⟨hn, rfl⟩, ⟨payload, _, _, rfl, ⟨rfl, rfl⟩, rfl⟩, rfl⟩
    obtain ⟨payload, rfl⟩ := payload
    exact ⟨payload, rfl, hn, by simp⟩
  · rintro ⟨payload, rfl, hn, rfl⟩
    exact ⟨payload.length, _, _, ⟨hn, rfl⟩, ⟨⟨payload, rfl⟩, _, [], rfl, ⟨rfl, rfl⟩, rfl⟩, by simp⟩

theorem frame?_plain_cons (tag : UInt8) (bs : List UInt8) (p : Nat) :
    frame?.run (plain (tag :: bs) p) = (frameAfter tag).run (plain bs (p + 1)) := by
  have hcall := call_plain 1 (tag :: bs) p
  have hmin : min 1 (tag :: bs).length = 1 := by simp
  rw [hmin] at hcall
  simp only [frame?, byte?, EStateM.run, bind, EStateM.bind, hcall]
  rfl

end Decoder

namespace Source

theorem nextFrame_plain_append (f : Frame) (h : f.payload.length < 2 ^ 32) (rest : List UInt8) (p : Nat) :
    (plain (f.wire ++ rest) p).nextFrame = (.ok (some f), plain rest (p + f.wire.length)) := by
  have hrun : Decoder.frame?.run (plain (f.wire ++ rest) p) = .ok (some f) (plain rest (p + f.wire.length)) := by
    rw [Frame.wire_eq_cons, List.cons_append, Decoder.frame?_plain_cons]
    refine (Decoder.accepts_frameAfter f.tag _ _ _ _).mpr ⟨_, rest, ⟨f.payload, rfl, h, rfl⟩, rfl, ?_⟩
    rw [List.length_cons, Nat.add_right_comm, Nat.add_assoc]
  rw [nextFrame, hrun]

theorem nextFrame_plain_nil (p : Nat) : (plain [] p).nextFrame = (.ok none, plain [] p) := rfl

theorem attempts_plain_nil (count p : Nat) :
    ((plain [] p).attempts count).1 = List.replicate count (.ok none) := by
  induction count with
  | zero => rfl
  | succ count ih =>
      rw [attempts, nextFrame_plain_nil]
      exact congrArg (List.cons _) ih

variable {fs : List Frame}

theorem attempts_plain_append (h : ∀ f ∈ fs, f.payload.length < 2 ^ 32) (rest : List UInt8) (more p : Nat) :
    ((plain (fs.flatMap Frame.wire ++ rest) p).attempts (fs.length + more)).1 =
      fs.map (fun f => .ok (some f)) ++ ((plain rest (p + (fs.flatMap Frame.wire).length)).attempts more).1 := by
  induction fs generalizing p with
  | nil => simp
  | cons f fs ih =>
      have hf := nextFrame_plain_append f (h f List.mem_cons_self) (fs.flatMap Frame.wire ++ rest) p
      have hrest := ih (fun g hg => h g (List.mem_cons_of_mem f hg)) (p + f.wire.length)
      rw [List.length_cons, Nat.add_right_comm, attempts, List.flatMap_cons, List.append_assoc, hf, List.length_append,
        ← Nat.add_assoc]
      exact congrArg (List.cons _) hrest

theorem attempts_plain_frames (h : ∀ f ∈ fs, f.payload.length < 2 ^ 32) (more p : Nat) :
    ((plain (fs.flatMap Frame.wire) p).attempts (fs.length + more)).1 =
      fs.map (fun f => .ok (some f)) ++ List.replicate more (.ok none) := by
  rw [← List.append_nil (fs.flatMap Frame.wire), attempts_plain_append h, attempts_plain_nil]

theorem framesWithin_plain_append (h : ∀ f ∈ fs, f.payload.length < 2 ^ 32) {rest : List UInt8} {last : FrameOutcome}
    (hlast : ∀ p bound, ((plain rest p).framesWithin (bound + 1)).1 = [last]) {bound : Nat} (hb : fs.length < bound)
    (p : Nat) :
    ((plain (fs.flatMap Frame.wire ++ rest) p).framesWithin bound).1 = fs.map (fun f => .ok (some f)) ++ [last] := by
  induction fs generalizing bound p with
  | nil =>
      obtain ⟨bound, rfl⟩ := Nat.exists_eq_add_of_lt hb
      exact hlast p _
  | cons f fs ih =>
      obtain ⟨bound, rfl⟩ := Nat.exists_eq_add_of_lt hb
      have hf := nextFrame_plain_append f (h f List.mem_cons_self) (fs.flatMap Frame.wire ++ rest) p
      have hlt : fs.length < (f :: fs).length + bound := by rw [List.length_cons]; omega
      have hrest := ih (fun g hg => h g (List.mem_cons_of_mem f hg)) hlt (p + f.wire.length)
      rw [framesWithin, List.flatMap_cons, List.append_assoc, hf]
      exact congrArg (List.cons _) hrest

theorem five_mul_length_le_wires (fs : List Frame) : 5 * fs.length ≤ (fs.flatMap Frame.wire).length := by
  induction fs with
  | nil => exact Nat.le_refl 0
  | cons f fs ih =>
      rw [List.flatMap_cons, List.length_append, f.length_wire, List.length_cons]
      omega

theorem frames_ofBytes_wires (h : ∀ f ∈ fs, f.payload.length < 2 ^ 32) :
    (ofBytes (fs.flatMap Frame.wire)).frames.1 = fs.map (fun f => .ok (some f)) ++ [.ok none] := by
  have hle := five_mul_length_le_wires fs
  have hb : fs.length < (fs.flatMap Frame.wire).length + 1 := by omega
  have hlast (p bound : Nat) : ((plain [] p).framesWithin (bound + 1)).1 = [.ok none] := rfl
  have hframes := framesWithin_plain_append h hlast hb 0
  rwa [List.append_nil] at hframes

end Source

end CallCapture
