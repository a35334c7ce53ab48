import CallCapture.Proofs.Wire.Payload
import CallCapture.Proofs.Wire.Plain
import CallCapture.Word.Lemmas

namespace CallCapture

theorem Observation.toNat_ofNat_length (o : Observation) : (UInt64.ofNat o.length).toNat = o.length := by
  have hlt : o.length < 2 ^ 64 := Nat.lt_succ_of_le o.length_le
  rw [UInt64.toNat_ofNat', Nat.mod_eq_of_lt hlt]

theorem Frame.length_wire (f : Frame) : f.wire.length = 5 + f.payload.length := by
  simp only [wire, List.length_append, List.length_singleton, Word.length_encode]

namespace Decoder

theorem accepts_word (width : Nat) : Accepts (word width) fun n w => n < 256 ^ width ∧ w = Word.encode width n := by
  refine (Accepts.exactly width).map.congr fun n w => ?_
  constructor
  · rintro ⟨_, ⟨rfl, rfl⟩, rfl⟩
    exact ⟨Word.decode_lt w, (Word.encode_decode w).symm⟩
  · rintro ⟨hn, rfl⟩
    refine ⟨_, ⟨rfl, Word.length_encode width n⟩, ?_⟩
    rw [Word.decode_encode, Nat.mod_eq_of_lt hn]

theorem accepts_word64 : Accepts word64 fun u w => w = Word.encode 8 u.toNat := by
  refine (accepts_word 8).map.congr fun u w => ?_
  constructor
  · rintro ⟨n, ⟨hn, rfl⟩, rfl⟩
    rw [UInt64.toNat_ofNat', Nat.mod_eq_of_lt (by simpa using hn)]
  · rintro rfl
    exact ⟨u.toNat, ⟨u.toNat_lt, rfl⟩, UInt64.ofNat_toNat.symm⟩

theorem accepts_observation : Accepts observation fun o w => w = o.wire := by
  refine (Accepts.bind accepts_word64 fun address => Accepts.bind accepts_word64 fun length =>
    Accepts.bind (Accepts.declared .observation length.toNat) fun content =>
      Accepts.pure (Observation.mk address content.1
        (Nat.le_trans (Nat.le_of_eq content.2) (toNat_le_addressTop length)))).congr fun o w => ?_
  constructor
  · rintro ⟨address, _, _, rfl, ⟨length, _, _, rfl, ⟨⟨content, hc⟩, _, _, rfl, ⟨rfl, rfl⟩, rfl⟩, rfl⟩, rfl⟩
    simp [Observation.wire, Observation.length, hc]
  · rintro rfl
    have hlength := o.toNat_ofNat_length
    refine ⟨o.address, _, _, rfl, ⟨.ofNat o.length, _, _, rfl,
      ⟨⟨o.bytes, hlength.symm⟩, _, [], rfl, ⟨rfl, rfl⟩, rfl⟩, rfl⟩, ?_⟩
    simp [Observation.wire, hlength]

theorem accepts_observations (count : Nat) :
    Accepts (observations count) fun os w => os.length = count ∧ w = os.flatMap Observation.wire := by
  induction count with
  | zero =>
      refine (Accepts.pure []).congr fun os w => ?_
      constructor
      · rintro ⟨rfl, rfl⟩
        exact ⟨rfl, rfl⟩
      · rintro ⟨hl, rfl⟩
        rw [List.length_eq_zero_iff.mp hl]
        exact ⟨rfl, rfl⟩
  | succ count ih =>
      refine (Accepts.bind accepts_observation fun o => Accepts.bind ih fun rest => Accepts.pure (o :: rest)).congr
        fun os w => ?_
      constructor
      · rintro ⟨o, _, _, rfl, ⟨rest, _, _, ⟨rfl, rfl⟩, ⟨rfl, rfl⟩, rfl⟩, rfl⟩
        simp
      · rintro ⟨hl, rfl⟩
        obtain ⟨o, rest, rfl⟩ := List.exists_cons_of_length_eq_add_one hl
        have hl : rest.length = count := Nat.succ.inj hl
        exact ⟨o, _, _, rfl, ⟨rest, _, [], ⟨hl, rfl⟩, ⟨rfl, rfl⟩, rfl⟩, by simp⟩

theorem accepts_record : Accepts record fun r w => r.Fits ∧ w = r.wire := by
  refine (Accepts.bind (accepts_word 4) fun m => Accepts.bind (accepts_observations m) fun reads =>
    Accepts.bind (accepts_word 4) fun n => Accepts.bind (accepts_observations n) fun writes =>
      Accepts.pure (Record.mk reads writes)).congr fun r w => ?_
  constructor
  · rintro ⟨_, _, _, ⟨hr, rfl⟩, ⟨reads, _, _, ⟨rfl, rfl⟩, ⟨_, _, _, ⟨hw, rfl⟩, ⟨writes, _, _, ⟨rfl, rfl⟩, ⟨rfl, rfl⟩,
      rfl⟩, rfl⟩, rfl⟩, rfl⟩
    exact ⟨⟨hr, hw⟩, by simp [Record.wire, Observation.wireList]⟩
  · rintro ⟨⟨hr, hw⟩, rfl⟩
    exact ⟨_, _, _, ⟨hr, rfl⟩, ⟨r.reads, _, _, ⟨rfl, rfl⟩, ⟨_, _, _, ⟨hw, rfl⟩, ⟨r.writes, _, [], ⟨rfl, rfl⟩,
      ⟨rfl, rfl⟩, rfl⟩, rfl⟩, rfl⟩, by simp [Record.wire, Observation.wireList]⟩

theorem wholeRecord_eq_ok (payload : List UInt8) (r : Record) :
    wholeRecord payload = .ok r ↔ r.Fits ∧ payload = r.wire := by
  have haccepts := accepts_record payload 0 r
  have hplain : Source.ofBytes payload = .plain payload 0 := rfl
  constructor
  · intro h
    simp only [wholeRecord] at h
    rw [hplain] at h
    cases hrun : record.run (.plain payload 0) with
    | error e s => simp [hrun] at h
    | ok r' s =>
        simp only [hrun] at h
        split at h
        · cases h
        · rename_i hend
          cases h
          obtain ⟨w, rest, ⟨hfits, rfl⟩, hpayload, rfl⟩ := (haccepts s).mp hrun
          have hrest : rest = [] := by simpa [Source.plain] using hend
          exact ⟨hfits, by rw [hpayload, hrest, List.append_nil]⟩
  · rintro ⟨hfits, rfl⟩
    have hrun := (haccepts (.plain [] (0 + r.wire.length))).mpr
      ⟨r.wire, [], ⟨hfits, rfl⟩, (List.append_nil _).symm, rfl⟩
    simp only [wholeRecord]
    rw [hplain, hrun]
    rfl

theorem accepts_framedRecord :
    Accepts framedRecord fun r w => r.Fits ∧ r.wire.length < 2 ^ 32 ∧ w = Frame.wire ⟨recordTag, r.wire⟩ := by
  refine (Accepts.bind (Accepts.exactly 1) fun tag => Accepts.ite
    (Accepts.bind (Accepts.throw _) fun _ => Accepts.bind (accepts_word 4) fun n =>
      Accepts.bind (Accepts.declared .payload n) fun payload => Accepts.ofExcept (wholeRecord payload.1))
    (Accepts.bind (accepts_word 4) fun n => Accepts.bind (Accepts.declared .payload n) fun payload =>
      Accepts.ofExcept (wholeRecord payload.1))).congr fun r w => ?_
  constructor
  · rintro ⟨_, tag, v, ⟨rfl, htag⟩, hrest, rfl⟩
    obtain ⟨t, rfl⟩ := List.length_eq_one_iff.mp htag
    split at hrest
    · obtain ⟨_, _, _, hfalse, -⟩ := hrest
      exact hfalse.elim
    · rename_i ht
      obtain ⟨_, _, _, ⟨hn, rfl⟩, ⟨⟨_, rfl⟩, payload, _, rfl, ⟨hwhole, rfl⟩, rfl⟩, rfl⟩ := hrest
      obtain ⟨hfits, rfl⟩ := (wholeRecord_eq_ok payload r).mp hwhole
      have ht : t = recordTag := by simpa using ht
      exact ⟨hfits, hn, by simp [Frame.wire, ht]⟩
  · rintro ⟨hfits, hn, rfl⟩
    refine ⟨[recordTag], _, _, ⟨rfl, rfl⟩, ?_, List.append_assoc _ _ _⟩
    rw [if_neg (by simp)]
    exact ⟨_, _, _, ⟨hn, rfl⟩, ⟨⟨r.wire, rfl⟩, _, [], rfl, ⟨(wholeRecord_eq_ok _ r).mpr ⟨hfits, rfl⟩, rfl⟩, rfl⟩,
      by simp⟩

end Decoder

theorem Decoder.Accepts.run_ofBytes {α : Type} {x : Decoder α} {P : α → List UInt8 → Prop} (h : x.Accepts P)
    (d rest : List UInt8) (a : α) :
    (∃ s, x.run (.ofBytes d) = .ok a s ∧ s.unread = rest) ↔ ∃ w, P a w ∧ d = w ++ rest := by
  constructor
  · rintro ⟨s, hrun, rfl⟩
    obtain ⟨w, rest, hP, rfl, rfl⟩ := (h d 0 a s).mp hrun
    exact ⟨w, hP, rfl⟩
  · rintro ⟨w, hP, rfl⟩
    exact ⟨_, (h _ 0 a _).mpr ⟨w, rest, hP, rfl, rfl⟩, rfl⟩

theorem read_record_iff (d rest : List UInt8) (r : Record) :
    (∃ s, Decoder.record.run (.ofBytes d) = .ok r s ∧ s.unread = rest) ↔
      ∃ bs, (Encoder.record r).bytes? = .ok bs ∧ d = bs ++ rest := by
  simp only [Decoder.accepts_record.run_ofBytes, Encoder.bytes?_record]

theorem bytes?_frame_ofRecord (r : Record) (bs : List UInt8) :
    (Extra.ofRecord r).frame.bytes? = .ok bs ↔
      r.Fits ∧ r.wire.length < 2 ^ 32 ∧ bs = Frame.wire ⟨recordTag, r.wire⟩ := by
  rw [Encoder.bytes?_frame]
  constructor
  · rintro ⟨payload, hpayload, hl, rfl⟩
    obtain ⟨hfits, rfl⟩ := (Encoder.bytes?_record r payload).mp hpayload
    exact ⟨hfits, hl, rfl⟩
  · rintro ⟨hfits, hl, rfl⟩
    exact ⟨r.wire, (Encoder.bytes?_record r _).mpr ⟨hfits, rfl⟩, hl, rfl⟩

theorem read_framedRecord_iff (d rest : List UInt8) (r : Record) :
    (∃ s, Decoder.framedRecord.run (.ofBytes d) = .ok r s ∧ s.unread = rest) ↔
      ∃ bs, (Extra.ofRecord r).frame.bytes? = .ok bs ∧ d = bs ++ rest := by
  simp only [Decoder.accepts_framedRecord.run_ofBytes, bytes?_frame_ofRecord]

/-- A record is read, with `n` bytes left over, exactly from what it is written as before `n` bytes, and so is a
framed record. Whatever follows, reading takes in what was written and no more, so no other bytes are read as this
record. All records are written whose lists and payload can be counted in four bytes. -/
theorem read_iff_written (d : List UInt8) (r : Record) (n : Nat) :
    ((∃ s, Decoder.record.run (.ofBytes d) = .ok r s ∧ s.unread.length = n) ↔
      ∃ bs rest, (Encoder.record r).bytes? = .ok bs ∧ d = bs ++ rest ∧ rest.length = n) ∧
    ((∃ s, Decoder.framedRecord.run (.ofBytes d) = .ok r s ∧ s.unread.length = n) ↔
      ∃ bs rest, (Extra.ofRecord r).frame.bytes? = .ok bs ∧ d = bs ++ rest ∧ rest.length = n) ∧
    (∀ bs rest, (∃ s, Decoder.record.run (.ofBytes (bs ++ rest)) = .ok r s ∧ s.unread = rest) ↔
      (Encoder.record r).bytes? = .ok bs) ∧
    (∀ bs rest, (∃ s, Decoder.framedRecord.run (.ofBytes (bs ++ rest)) = .ok r s ∧ s.unread = rest) ↔
      (Extra.ofRecord r).frame.bytes? = .ok bs) ∧
    ((∃ bs, (Encoder.record r).bytes? = .ok bs) ↔ r.reads.length < 2 ^ 32 ∧ r.writes.length < 2 ^ 32) ∧
    ((∃ bs, (Extra.ofRecord r).frame.bytes? = .ok bs) ↔
      ∃ payload, (Encoder.record r).bytes? = .ok payload ∧ payload.length < 2 ^ 32) := by
  refine ⟨?_, ?_, fun bs rest => ?_, fun bs rest => ?_, ?_, ?_⟩
  · constructor
    · rintro ⟨s, hrun, rfl⟩
      obtain ⟨bs, hbs, hd⟩ := (read_record_iff d s.unread r).mp ⟨s, hrun, rfl⟩
      exact ⟨bs, s.unread, hbs, hd, rfl⟩
    · rintro ⟨bs, rest, hbs, hd, rfl⟩
      obtain ⟨s, hrun, rfl⟩ := (read_record_iff d rest r).mpr ⟨bs, hbs, hd⟩
      exact ⟨s, hrun, rfl⟩
  · constructor
    · rintro ⟨s, hrun, rfl⟩
      obtain ⟨bs, hbs, hd⟩ := (read_framedRecord_iff d s.unread r).mp ⟨s, hrun, rfl⟩
      exact ⟨bs, s.unread, hbs, hd, rfl⟩
    · rintro ⟨bs, rest, hbs, hd, rfl⟩
      obtain ⟨s, hrun, rfl⟩ := (read_framedRecord_iff d rest r).mpr ⟨bs, hbs, hd⟩
      exact ⟨s, hrun, rfl⟩
  · rw [read_record_iff]
    simp
  · rw [read_framedRecord_iff]
    simp
  · simp [Encoder.bytes?_record, Record.Fits]
  · simp only [bytes?_frame_ofRecord, Encoder.bytes?_record]
    constructor
    · rintro ⟨_, hfits, hl, -⟩
      exact ⟨r.wire, ⟨hfits, rfl⟩, hl⟩
    · rintro ⟨_, ⟨hfits, rfl⟩, hl⟩
      exact ⟨_, hfits, hl, rfl⟩

end CallCapture
