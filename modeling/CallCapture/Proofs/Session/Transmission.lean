import CallCapture.Proofs.Session.Attachments
import CallCapture.Proofs.Wire.Extras
import CallCapture.Proofs.Wire.Frames

namespace CallCapture.Session

theorem exists_frames_of_sentAs {s : Session}
    (h : ∀ a ∈ s.observer.attachments, ∃ f, a.SentAs s.observer.record f ∧ f.payload.length < 2 ^ 32) :
    ∃ (bytes : List UInt8) (fs : List Frame),
      (s.step (.encodeExtras none)).1 = .encoded bytes none ∧
      List.Forall₂ (Attachment.SentAs s.observer.record) s.observer.attachments fs ∧
      (Source.ofBytes bytes).frames.1 = fs.map (fun f => .ok (some f)) ++ [.ok none] ∧
      ∀ more, ((Source.ofBytes bytes).attempts (fs.length + more)).1 =
        fs.map (fun f => .ok (some f)) ++ List.replicate more (.ok none) := by
  obtain ⟨fs, hsent, hl⟩ := Extras.exists_sentAs h
  have hrun := Extras.encode_run hsent hl []
  refine ⟨fs.flatMap Frame.wire, fs, ?_, hsent, Source.frames_ofBytes_wires hl, fun more => ?_⟩
  · change s.encodeExtras none = _
    have hencode : s.observer.extras.encode.run (.ofLimit none) = .ok () ⟨fs.flatMap Frame.wire, none⟩ := hrun
    rw [encodeExtras, hencode]
  · exact Source.attempts_plain_frames hl more 0

/-- If every extra can be written, and all lengths are below `2 ^ 32`, writing the extras after any run succeeds, and
reading yields one frame for each attachment, in order, and then nothing more, however often one asks. The frame of an
extra has its tag and payload, whatever they are; the record has one frame as soon as there is a record, and is read
back from it. -/
theorem sent_extras_read_back (config : ObserverConfig) (readerOf : Memory → Memory → Reader)
    (placement : PoolPlacement) (source : ChunkSource) (actions : List Action) :
    let s := (Session.new config readerOf placement source).run actions
    (∀ x, .external x ∈ s.observer.attachments →
      ∃ payload, x.encode.bytes? = .ok payload ∧ payload.length < 2 ^ 32) →
    (∀ r, s.observer.record = some r → r.reads.length < 2 ^ 32 ∧ r.writes.length < 2 ^ 32 ∧
      ∀ payload, (Encoder.record r).bytes? = .ok payload → payload.length < 2 ^ 32) →
    (∃ (bytes : List UInt8) (fs : List Frame),
      (s.step (.encodeExtras none)).1 = .encoded bytes none ∧
      List.Forall₂ (Attachment.SentAs s.observer.record) s.observer.attachments fs ∧
      (Source.ofBytes bytes).frames.1 = fs.map (fun f => .ok (some f)) ++ [.ok none] ∧
      ∀ more, ((Source.ofBytes bytes).attempts (fs.length + more)).1 =
        fs.map (fun f => .ok (some f)) ++ List.replicate more (.ok none)) ∧
    s.observer.attachments.countP Attachment.isRecord = (if s.observer.record.isSome then 1 else 0) ∧
    s.observer.attachments.filterMap Attachment.extra? = actions.filterMap Action.extra? := by
  intro s hexternal hrecord
  have hplaced : s.RecordPlaced := (recordPlaced_new config readerOf placement source).run actions
  refine ⟨exists_frames_of_sentAs fun a ha => ?_, hplaced, filterMap_extra?_run _ actions⟩
  cases a with
  | external x =>
      obtain ⟨payload, hpayload, hl⟩ := hexternal x ha
      exact ⟨_, .external hpayload, hl⟩
  | record =>
      obtain ⟨r, hr⟩ := Option.isSome_iff_exists.mp (hplaced.isSome_of_mem ha)
      obtain ⟨hreads, hwrites, hl⟩ := hrecord r hr
      have hwritten : (Encoder.record r).bytes? = .ok r.wire :=
        (Encoder.bytes?_record r r.wire).mpr ⟨⟨hreads, hwrites⟩, rfl⟩
      rw [hr]
      exact ⟨_, Attachment.sentAs_record hwritten, hl _ hwritten⟩

/-- The extra has the tag of records, and its payload is itself a frame. -/
theorem framed_payload_read_back :
    let s := (Session.new .fullFidelity (fun _ _ => Memory.pattern.reader) AddressSpace.placePool
      AddressSpace.placeChunk).run
        [.addExtra (.ofBytes recordTag [recordTag, 1, 0, 0, 0, 7]), .register .read 5 2, .capturePhase .read]
    ∃ (bytes : List UInt8) (fs : List Frame), (s.step (.encodeExtras none)).1 = .encoded bytes none ∧ fs.length = 2 ∧
      (Source.ofBytes bytes).frames.1 = fs.map (fun f => .ok (some f)) ++ [.ok none] := by
  intro s
  have hattached : s.observer.attachments =
      [.external (.ofBytes recordTag [recordTag, 1, 0, 0, 0, 7]), .record] := rfl
  have hexternal : ∀ x, .external x ∈ s.observer.attachments →
      ∃ payload, x.encode.bytes? = .ok payload ∧ payload.length < 2 ^ 32 := by
    intro x hx
    rw [hattached] at hx
    obtain rfl : x = .ofBytes recordTag [recordTag, 1, 0, 0, 0, 7] := by simpa using hx
    exact ⟨_, rfl, by decide⟩
  have hrecord : ∀ r, s.observer.record = some r → r.reads.length < 2 ^ 32 ∧ r.writes.length < 2 ^ 32 ∧
      ∀ payload, (Encoder.record r).bytes? = .ok payload → payload.length < 2 ^ 32 := by
    intro r hr
    obtain rfl : (⟨[⟨5, [5, 6], by decide⟩], []⟩ : Record) = r := Option.some.inj hr
    refine ⟨by decide, by decide, fun payload hp => ?_⟩
    obtain rfl := ((Encoder.bytes?_record _ payload).mp hp).2
    decide
  obtain ⟨⟨bytes, fs, hencoded, hsent, hframes, -⟩, -⟩ := sent_extras_read_back .fullFidelity
    (fun _ _ => Memory.pattern.reader) AddressSpace.placePool AddressSpace.placeChunk
    [.addExtra (.ofBytes recordTag [recordTag, 1, 0, 0, 0, 7]), .register .read 5 2, .capturePhase .read]
    hexternal hrecord
  exact ⟨bytes, fs, hencoded, by rw [← hsent.length_eq]; rfl, hframes⟩

end CallCapture.Session
