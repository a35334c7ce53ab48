import CallCapture.Proofs.Wire.Delivery

namespace CallCapture

/-- Bytes with no complete frame in front, and how an attempt to read one ends. -/
inductive Remainder : List UInt8 → FrameOutcome → Prop
  | nothing : Remainder [] (.ok none)
  | header {bs : List UInt8} (one : 1 ≤ bs.length) (four : bs.length ≤ 4) : Remainder bs (.error (.io .unexpectedEnd))
  | payload (tag : UInt8) {declared : Nat} {bs : List UInt8} (counted : declared < 2 ^ 32)
      (short : bs.length < declared) :
      Remainder (tag :: (Word.encode 4 declared ++ bs))
        (.error (.malformed (.truncated .payload declared bs.length)))

theorem exists_frame_or_remainder (bs : List UInt8) :
    (∃ (f : Frame) (rest : List UInt8), f.payload.length < 2 ^ 32 ∧ bs = f.wire ++ rest) ∨
      ∃ last, Remainder bs last := by
  cases bs with
  | nil => exact .inr ⟨_, .nothing⟩
  | cons tag bs =>
      by_cases hshort : bs.length < 4
      · exact .inr ⟨_, .header (Nat.le_add_left 1 _) hshort⟩
      · obtain ⟨declared, content, hcounted, rfl⟩ := Word.exists_encode_append (Nat.le_of_not_lt hshort)
        by_cases hcomplete : declared ≤ content.length
        · have hlength : (content.take declared).length = declared := List.length_take_of_le hcomplete
          refine .inl ⟨⟨tag, content.take declared⟩, content.drop declared, by rwa [hlength], ?_⟩
          rw [Frame.wire_eq_cons, hlength, List.cons_append, List.append_assoc, List.take_append_drop]
        · exact .inr ⟨_, .payload tag hcounted (Nat.lt_of_not_le hcomplete)⟩

theorem exists_frames_and_remainder (d : List UInt8) :
    ∃ (fs : List Frame) (rest : List UInt8) (last : FrameOutcome),
      (∀ f ∈ fs, f.payload.length < 2 ^ 32) ∧ Remainder rest last ∧ d = fs.flatMap Frame.wire ++ rest := by
  induction hn : d.length using Nat.strongRecOn generalizing d with
  | ind n ih =>
      rcases exists_frame_or_remainder d with ⟨f, rest, hf, rfl⟩ | ⟨last, hlast⟩
      · have hfewer : rest.length < n := by
          rw [← hn, List.length_append, f.length_wire]
          omega
        obtain ⟨fs, rest, last, hfs, hlast, rfl⟩ := ih _ hfewer rest rfl
        refine ⟨f :: fs, rest, last, List.forall_mem_cons.mpr ⟨hf, hfs⟩, hlast, ?_⟩
        rw [List.flatMap_cons, List.append_assoc]
      · exact ⟨[], d, last, List.forall_mem_nil _, hlast, rfl⟩

namespace Remainder

open Source Decoder FrameOutcome

variable {bs : List UInt8} {last : FrameOutcome}

theorem isLast (h : Remainder bs last) : isLast last = true := by
  cases h <;> rfl

theorem eq_nil (h : Remainder bs (.ok none)) : bs = [] := by
  cases h
  rfl

theorem nextFrame (h : Remainder bs last) (p : Nat) : (plain bs p).nextFrame.1 = last := by
  cases h with
  | nothing => rfl
  | header one four =>
      obtain ⟨tag, bs, rfl⟩ := List.exists_cons_of_length_pos one
      have hshort : ¬4 ≤ bs.length := Nat.not_le.mpr (Nat.lt_of_succ_le four)
      have hword : (word 4).run (plain bs (p + 1)) = .error (.io .unexpectedEnd) (plain [] (p + 1 + bs.length)) := by
        rw [word, map_eq_pure_bind, EStateM.run_bind, exactly_plain, if_neg hshort]
      rw [Source.nextFrame, frame?_plain_cons, frameAfter, EStateM.run_bind, hword]
  | @payload tag declared content counted short =>
      have hword := (accepts_word 4 (Word.encode 4 declared ++ content) (p + 1) declared _).mpr
        ⟨_, content, ⟨counted, rfl⟩, rfl, rfl⟩
      rw [Source.nextFrame, frame?_plain_cons, frameAfter, EStateM.run_bind, hword]
      dsimp only
      rw [EStateM.run_bind, declared_plain, dif_neg (Nat.not_le.mpr short)]

theorem framesWithin (h : Remainder bs last) (p bound : Nat) : ((plain bs p).framesWithin (bound + 1)).1 = [last] := by
  rw [framesWithin_of_isLast (Prod.ext (h.nextFrame p) rfl) h.isLast]

theorem attempts (h : Remainder bs last) (p : Nat) : ((plain bs p).attempts 1).1 = [last] := by
  rw [Source.attempts, ← h.nextFrame p]
  rfl

end Remainder

/-- Every stream of bytes is read as the complete frames that it begins with, and one more attempt tells what is behind
them: nothing, up to four bytes of a header, or fewer bytes than a header declares. So reading takes no more than one
attempt for every five bytes and a last one, and finds the end of the data exactly if the stream is a row of complete
frames, which are then the frames read. -/
theorem stream_read_as_frames (d : List UInt8) :
    ∃ (fs : List Frame) (rest : List UInt8) (last : FrameOutcome),
      ((Source.ofBytes d).attempts (fs.length + 1)).1 = fs.map (fun f => .ok (some f)) ++ [last] ∧
      (Source.ofBytes d).frames.1 = fs.map (fun f => .ok (some f)) ++ [last] ∧
      fs.length + 1 ≤ d.length / 5 + 1 ∧
      (∀ f ∈ fs, f.payload.length < 2 ^ 32) ∧ d = fs.flatMap Frame.wire ++ rest ∧ Remainder rest last ∧
      (last = .ok none → d = fs.flatMap Frame.wire) ∧
      (last = .ok none ↔ ∃ gs : List Frame, (∀ g ∈ gs, g.payload.length < 2 ^ 32) ∧ d = gs.flatMap Frame.wire) := by
  obtain ⟨fs, rest, last, hfs, hlast, rfl⟩ := exists_frames_and_remainder d
  have hle := Source.five_mul_length_le_wires fs
  have hb : fs.length < (fs.flatMap Frame.wire ++ rest).length + 1 := by rw [List.length_append]; omega
  have hframes : (Source.ofBytes (fs.flatMap Frame.wire ++ rest)).frames.1 =
      fs.map (fun f => .ok (some f)) ++ [last] := Source.framesWithin_plain_append hfs hlast.framesWithin hb 0
  have hend : last = .ok none → fs.flatMap Frame.wire ++ rest = fs.flatMap Frame.wire := by
    rintro rfl
    rw [hlast.eq_nil, List.append_nil]
  refine ⟨fs, rest, last, ?_, hframes, ?_, hfs, rfl, hlast, hend, fun h => ⟨fs, hfs, hend h⟩, ?_⟩
  · exact (Source.attempts_plain_append hfs rest 1 0).trans (congrArg _ (hlast.attempts _))
  · have hfive : 5 * fs.length ≤ (fs.flatMap Frame.wire ++ rest).length := by rw [List.length_append]; omega
    omega
  · rintro ⟨gs, hgs, hd⟩
    rw [hd, Source.frames_ofBytes_wires hgs] at hframes
    exact (List.singleton_inj.mp (List.append_inj_right' hframes rfl)).symm

end CallCapture
