import CallCapture.Proofs.Wire.RoundTrip

namespace CallCapture

inductive Field
  | number (width n : Nat)
  | content (part : Part) (bytes : List UInt8)

namespace Field

def wire : Field → List UInt8
  | number width n => Word.encode width n
  | content _ bytes => bytes

def failure : Field → (found : Nat) → WireError
  | number .., _ => .io .unexpectedEnd
  | content part bytes, found => .malformed (.truncated part bytes.length found)

end Field

def Observation.fields (o : Observation) : List Field :=
  [.number 8 o.address.toNat, .number 8 o.length, .content .observation o.bytes]

def Observation.listFields (os : List Observation) : List Field :=
  .number 4 os.length :: os.flatMap fields

def Record.fields (r : Record) : List Field := Observation.listFields r.reads ++ Observation.listFields r.writes

def Frame.fields (f : Frame) : List Field :=
  [.number 1 f.tag.toNat, .number 4 f.payload.length, .content .payload f.payload]

theorem Observation.wire_fields (o : Observation) : o.fields.flatMap Field.wire = o.wire := by
  simp [fields, Field.wire, wire]

theorem Observation.wire_flatMap_fields (os : List Observation) :
    (os.flatMap fields).flatMap Field.wire = os.flatMap wire := by
  rw [List.flatMap_assoc]
  exact List.flatMap_congr fun o _ => o.wire_fields

theorem Observation.wire_listFields (os : List Observation) :
    (listFields os).flatMap Field.wire = wireList os := by
  rw [listFields, List.flatMap_cons, wire_flatMap_fields]
  rfl

theorem Record.wire_fields (r : Record) : r.fields.flatMap Field.wire = r.wire := by
  rw [fields, List.flatMap_append, Observation.wire_listFields, Observation.wire_listFields, wire]

theorem Frame.wire_fields (f : Frame) : f.fields.flatMap Field.wire = f.wire := by
  have htag : Word.encode 1 f.tag.toNat = [f.tag] := by simp [Word.encode]
  simp [fields, Field.wire, wire, htag]

/-- The first `n` bytes of the fields end in `f`: `found` bytes of it are among them, and one at least is not. -/
inductive Cut : (fs : List Field) → (n : Nat) → (f : Field) → (found : Nat) → Prop
  | inside {f : Field} {fs : List Field} {found : Nat} (h : found < f.wire.length) : Cut (f :: fs) found f found
  | behind {f g : Field} {fs : List Field} {n found : Nat} (h : Cut fs n f found) :
      Cut (g :: fs) (g.wire.length + n) f found

namespace Cut

variable {f : Field} {fs gs : List Field} {n found : Nat}

theorem lt (h : Cut fs n f found) : n < (fs.flatMap Field.wire).length := by
  induction h with
  | inside h =>
      rw [List.flatMap_cons, List.length_append]
      omega
  | behind _ ih =>
      rw [List.flatMap_cons, List.length_append]
      omega

theorem mem (h : Cut fs n f found) : f ∈ fs := by
  induction h with
  | inside => exact List.mem_cons_self
  | behind _ ih => exact List.mem_cons_of_mem _ ih

theorem exists_of_lt (h : n < (fs.flatMap Field.wire).length) : ∃ f found, Cut fs n f found := by
  induction fs generalizing n with
  | nil => exact absurd h (Nat.not_lt_zero n)
  | cons g fs ih =>
      by_cases hn : n < g.wire.length
      · exact ⟨g, n, .inside hn⟩
      · obtain ⟨m, rfl⟩ := Nat.exists_eq_add_of_le (Nat.le_of_not_lt hn)
        rw [List.flatMap_cons, List.length_append] at h
        obtain ⟨f, found, hcut⟩ := ih (Nat.lt_of_add_lt_add_left h)
        exact ⟨f, found, .behind hcut⟩

theorem of_append (h : Cut (fs ++ gs) n f found) :
    Cut fs n f found ∨ ∃ m, n = (fs.flatMap Field.wire).length + m ∧ Cut gs m f found := by
  induction fs generalizing n with
  | nil => exact .inr ⟨n, by simp, h⟩
  | cons g fs ih =>
      rw [List.cons_append] at h
      cases h with
      | inside h => exact .inl (.inside h)
      | behind h =>
          rcases ih h with hfs | ⟨m, rfl, hgs⟩
          · exact .inl (.behind hfs)
          · refine .inr ⟨m, ?_, hgs⟩
            rw [List.flatMap_cons, List.length_append, Nat.add_assoc]

end Cut

namespace Decoder

open Source

def Breaks {α : Type} (x : Decoder α) (fs : List Field) : Prop :=
  ∀ n f found p, Cut fs n f found →
    ∃ t, x.run (plain ((fs.flatMap Field.wire).take n) p) = .error (f.failure found) t

namespace Breaks

variable {α β : Type} {x : Decoder α} {fs gs : List Field}

theorem nil (x : Decoder α) : Breaks x [] := fun _ _ _ _ h => absurd h.lt (Nat.not_lt_zero _)

theorem first (hx : Breaks x fs) (f : α → Decoder β) : Breaks (x >>= f) fs := by
  intro n g found p hcut
  obtain ⟨t, hrun⟩ := hx n g found p hcut
  exact ⟨t, by rw [EStateM.run_bind, hrun]⟩

protected theorem bind {P : α → List UInt8 → Prop} {f : α → Decoder β} {a : α} (hx : Breaks x fs) (haccepts : Accepts x P)
    (ha : P a (fs.flatMap Field.wire)) (hf : Breaks (f a) gs) : Breaks (x >>= f) (fs ++ gs) := by
  intro n g found p hcut
  rw [List.flatMap_append]
  rcases hcut.of_append with hfs | ⟨m, rfl, hgs⟩
  · rw [List.take_append_of_le_length (Nat.le_of_lt hfs.lt)]
    exact hx.first f n g found p hfs
  · rw [List.take_length_add_append]
    have hrun := (haccepts _ p a _).mpr ⟨_, (gs.flatMap Field.wire).take m, ha, rfl, rfl⟩
    obtain ⟨t, hrest⟩ := hf m g found (p + (fs.flatMap Field.wire).length) hgs
    exact ⟨t, by rw [EStateM.run_bind, hrun]; exact hrest⟩

protected theorem map (hx : Breaks x fs) (f : α → β) : Breaks (f <$> x) fs := by
  rw [map_eq_pure_bind]
  exact hx.first _

end Breaks

theorem Breaks.run_cut {α : Type} {x : Decoder α} {fs : List Field} (hx : Breaks x fs) {cut : List UInt8}
    (hfront : cut <+: fs.flatMap Field.wire) (hproper : cut ≠ fs.flatMap Field.wire) :
    ∃ e t, x.run (.ofBytes cut) = .error e t ∧ (∃ f found, Cut fs cut.length f found) ∧
      ∀ f found, Cut fs cut.length f found → e = f.failure found := by
  have hlt : cut.length < (fs.flatMap Field.wire).length :=
    Nat.lt_of_le_of_ne hfront.length_le fun hlength => hproper (hfront.eq_of_length hlength)
  have hfails : ∀ f found, Cut fs cut.length f found → ∃ t, x.run (.ofBytes cut) = .error (f.failure found) t := by
    intro f found hcut
    have hrun := hx _ f found 0 hcut
    rwa [← List.prefix_iff_eq_take.mp hfront] at hrun
  obtain ⟨f, found, hcut⟩ := Cut.exists_of_lt hlt
  obtain ⟨t, hrun⟩ := hfails f found hcut
  refine ⟨_, t, hrun, ⟨f, found, hcut⟩, fun g k hg => ?_⟩
  obtain ⟨u, hrun'⟩ := hfails g k hg
  exact (EStateM.Result.error.inj (hrun.symm.trans hrun')).1

theorem breaks_singleton {α : Type} {x : Decoder α} {f : Field}
    (h : ∀ bs p, bs.length < f.wire.length → ∃ t, x.run (plain bs p) = .error (f.failure bs.length) t) :
    Breaks x [f] := by
  intro n g found p hcut
  cases hcut with
  | inside hlt =>
      have hlength : (f.wire.take n).length = n := List.length_take_of_le (Nat.le_of_lt hlt)
      obtain ⟨t, hrun⟩ := h (f.wire.take n) p (by rwa [hlength])
      rw [hlength] at hrun
      exact ⟨t, by simpa using hrun⟩
  | behind hcut => exact absurd hcut.lt (Nat.not_lt_zero _)

theorem breaks_exactly (width n : Nat) : Breaks (exactly width) [.number width n] := by
  refine breaks_singleton fun bs p hlt => ?_
  have hshort : ¬width ≤ bs.length := by simpa [Field.wire] using hlt
  exact ⟨_, by rw [exactly_plain, if_neg hshort, Field.failure]⟩

theorem breaks_declared (part : Part) (bytes : List UInt8) :
    Breaks (declared part bytes.length) [.content part bytes] := by
  refine breaks_singleton fun bs p hlt => ?_
  have hshort : ¬bytes.length ≤ bs.length := Nat.not_le.mpr hlt
  exact ⟨_, by rw [declared_plain, dif_neg hshort, Field.failure]⟩

theorem breaks_word (width n : Nat) : Breaks (word width) [.number width n] := (breaks_exactly width n).map _

theorem breaks_word64 (n : Nat) : Breaks word64 [.number 8 n] := (breaks_word 8 n).map _

theorem breaks_observation (o : Observation) : Breaks observation o.fields := by
  have hlength := o.toNat_ofNat_length
  have hcontent := breaks_declared .observation o.bytes
  rw [show o.bytes.length = (UInt64.ofNat o.length).toNat from hlength.symm] at hcontent
  refine (breaks_word64 _).bind (a := o.address) accepts_word64 (by simp [Field.wire]) ?_
  refine (breaks_word64 _).bind (a := .ofNat o.length) accepts_word64 (by simp [Field.wire, hlength]) ?_
  exact hcontent.first _

theorem breaks_observations (os : List Observation) :
    Breaks (observations os.length) (os.flatMap Observation.fields) := by
  induction os with
  | nil => exact .nil _
  | cons o os ih =>
      exact (breaks_observation o).bind accepts_observation o.wire_fields (ih.first _)

theorem breaks_record {r : Record} (h : r.Fits) : Breaks record r.fields := by
  have hfields : r.fields = [.number 4 r.reads.length] ++ (r.reads.flatMap Observation.fields ++
      ([.number 4 r.writes.length] ++ r.writes.flatMap Observation.fields)) := rfl
  rw [hfields]
  refine (breaks_word 4 _).bind (accepts_word 4) (a := r.reads.length) (by simpa [Field.wire] using h.1) ?_
  refine (breaks_observations _).bind (accepts_observations _) (a := r.reads) ⟨rfl, Observation.wire_flatMap_fields _⟩ ?_
  refine (breaks_word 4 _).bind (accepts_word 4) (a := r.writes.length) (by simpa [Field.wire] using h.2) ?_
  exact (breaks_observations _).first _

theorem breaks_framedRecord {r : Record} (h : r.wire.length < 2 ^ 32) :
    Breaks framedRecord (Frame.fields ⟨recordTag, r.wire⟩) := by
  refine (breaks_exactly 1 _).bind (Accepts.exactly 1) (a := [recordTag]) (by simp [Field.wire, Word.encode]) ?_
  refine (breaks_word 4 _).bind (accepts_word 4) (a := r.wire.length) (by simpa [Field.wire] using h) ?_
  exact (breaks_declared .payload r.wire).first _

end Decoder

theorem Record.number_or_content {r : Record} {f : Field} (h : f ∈ r.fields) :
    (∃ width n, f = .number width n) ∨ ∃ bytes, f = .content .observation bytes := by
  have hlist : ∀ os, f ∈ Observation.listFields os →
      (∃ width n, f = .number width n) ∨ ∃ bytes, f = .content .observation bytes := by
    intro os hf
    rcases List.mem_cons.mp hf with rfl | hf
    · exact .inl ⟨_, _, rfl⟩
    · obtain ⟨o, -, hf⟩ := List.mem_flatMap.mp hf
      simp only [Observation.fields, List.mem_cons, List.not_mem_nil, or_false] at hf
      rcases hf with rfl | rfl | rfl
      · exact .inl ⟨_, _, rfl⟩
      · exact .inl ⟨_, _, rfl⟩
      · exact .inr ⟨_, rfl⟩
  rcases List.mem_append.mp h with h | h
  · exact hlist _ h
  · exact hlist _ h

theorem Frame.cut_header (f : Frame) {n : Nat} (h : n < 5) : ∃ width m found, Cut f.fields n (.number width m) found := by
  cases n with
  | zero => exact ⟨_, _, _, .inside (by simp [Field.wire])⟩
  | succ n =>
      have hlength : n < (Field.number 4 f.payload.length).wire.length := by
        rw [Field.wire, Word.length_encode]
        omega
      have hcut : Cut f.fields (1 + n) (.number 4 f.payload.length) n := .behind (.inside hlength)
      exact ⟨_, _, _, Nat.add_comm 1 n ▸ hcut⟩

theorem Frame.cut_payload (f : Frame) {n : Nat} (hheader : 5 ≤ n) (h : n < f.wire.length) :
    Cut f.fields n (.content .payload f.payload) (n - 5) := by
  obtain ⟨n, rfl⟩ := Nat.exists_eq_add_of_le hheader
  rw [f.length_wire] at h
  have hcut : Cut f.fields (1 + (4 + n)) (.content .payload f.payload) n :=
    .behind (.behind (.inside (Nat.lt_of_add_lt_add_left h)))
  rw [← Nat.add_assoc] at hcut
  rwa [Nat.add_sub_cancel_left]

/-- The fields of a record are what is written of it, and whatever stops short of their end is refused. If the cut falls
in front of or inside the content of an observation, before its last byte, the refusal gives the number of bytes that was
declared and the number that follows; if it falls in front of or inside a count, an address or a length, the data end
too early. The header of a frame is five bytes. -/
theorem truncated_record_refused (r : Record) (full cut : List UInt8) (front : cut <+: full) (proper : cut ≠ full) :
    ((Encoder.record r).bytes? = .ok full →
      full = r.fields.flatMap Field.wire ∧
      ∃ e t, Decoder.record.run (.ofBytes cut) = .error e t ∧
        ((∃ detail, e = .malformed detail) ↔
          ∃ bytes found, Cut r.fields cut.length (.content .observation bytes) found) ∧
        (∀ declared found, e = .malformed (.truncated .observation declared found) ↔
          ∃ bytes, bytes.length = declared ∧ Cut r.fields cut.length (.content .observation bytes) found) ∧
        (e = .io .unexpectedEnd ↔ ∃ width n found, Cut r.fields cut.length (.number width n) found)) ∧
    ((Extra.ofRecord r).frame.bytes? = .ok full →
      ∃ e t, Decoder.framedRecord.run (.ofBytes cut) = .error e t ∧
        (cut.length < 5 → e = .io .unexpectedEnd) ∧
        (5 ≤ cut.length → e = .malformed (.truncated .payload (full.length - 5) (cut.length - 5)))) := by
  refine ⟨fun hfull => ?_, fun hfull => ?_⟩
  · obtain ⟨hfits, rfl⟩ := (Encoder.bytes?_record r full).mp hfull
    rw [← r.wire_fields] at front proper
    obtain ⟨e, t, hrun, ⟨f, found, hcut⟩, hfailure⟩ := (Decoder.breaks_record hfits).run_cut front proper
    have he := hfailure f found hcut
    refine ⟨r.wire_fields.symm, e, t, hrun, ?_, fun declared k => ?_, ?_⟩
    · constructor
      · rintro ⟨detail, rfl⟩
        rcases Record.number_or_content hcut.mem with ⟨width, n, rfl⟩ | ⟨bytes, rfl⟩
        · cases he
        · exact ⟨bytes, found, hcut⟩
      · rintro ⟨bytes, k, hk⟩
        exact ⟨_, hfailure _ _ hk⟩
    · constructor
      · rintro rfl
        rcases Record.number_or_content hcut.mem with ⟨width, n, rfl⟩ | ⟨bytes, rfl⟩
        · cases he
        · cases he
          exact ⟨bytes, rfl, hcut⟩
      · rintro ⟨bytes, rfl, hk⟩
        exact hfailure _ _ hk
    · constructor
      · rintro rfl
        rcases Record.number_or_content hcut.mem with ⟨width, n, rfl⟩ | ⟨bytes, rfl⟩
        · exact ⟨width, n, found, hcut⟩
        · cases he
      · rintro ⟨width, n, k, hk⟩
        exact hfailure _ _ hk
  · obtain ⟨-, hlength, rfl⟩ := (bytes?_frame_ofRecord r full).mp hfull
    let f : Frame := ⟨recordTag, r.wire⟩
    have hlt : cut.length < f.wire.length :=
      Nat.lt_of_le_of_ne front.length_le fun hlength => proper (front.eq_of_length hlength)
    rw [← f.wire_fields] at front proper
    obtain ⟨e, t, hrun, -, hfailure⟩ := (Decoder.breaks_framedRecord hlength).run_cut front proper
    refine ⟨e, t, hrun, fun hheader => ?_, fun hheader => ?_⟩
    · obtain ⟨width, n, found, hcut⟩ := f.cut_header hheader
      exact hfailure _ _ hcut
    · rw [f.length_wire, Nat.add_sub_cancel_left]
      exact hfailure _ _ (f.cut_payload hheader hlt)

theorem half_content_refused :
    let r : Record := ⟨[⟨9, [], by decide⟩, ⟨16, [1, 2], by decide⟩], []⟩
    ((Encoder.record r).bytes? = .ok r.wire ∧ r.wire.take 37 <+: r.wire ∧ r.wire.take 37 ≠ r.wire ∧
      ∃ e t, Decoder.record.run (.ofBytes (r.wire.take 37)) = .error e t ∧
        e = .malformed (.truncated .observation 2 1)) ∧
    (let full := Frame.wire ⟨recordTag, r.wire⟩
    (Extra.ofRecord r).frame.bytes? = .ok full ∧ full.take 42 <+: full ∧ full.take 42 ≠ full ∧
      ∃ e t, Decoder.framedRecord.run (.ofBytes (full.take 42)) = .error e t ∧
        e = .malformed (.truncated .payload 42 37)) := by
  intro r
  have hfits : r.Fits := ⟨by decide, by decide⟩
  have hfull : (Encoder.record r).bytes? = .ok r.wire := (Encoder.bytes?_record r r.wire).mpr ⟨hfits, rfl⟩
  have hframe : (Extra.ofRecord r).frame.bytes? = .ok (Frame.wire ⟨recordTag, r.wire⟩) :=
    (bytes?_frame_ofRecord r _).mpr ⟨hfits, by decide, rfl⟩
  have hproper : r.wire.take 37 ≠ r.wire := by decide
  have hcut : Cut r.fields (4 + (8 + (8 + (0 + (8 + (8 + 1)))))) (.content .observation [1, 2]) 1 :=
    .behind (.behind (.behind (.behind (.behind (.behind (.inside (by decide)))))))
  refine ⟨⟨hfull, List.take_prefix _ _, hproper, ?_⟩, hframe, List.take_prefix _ _, by decide, ?_⟩
  · obtain ⟨-, e, t, hrun, -, htruncated, -⟩ :=
      (truncated_record_refused r r.wire _ (List.take_prefix 37 _) hproper).1 hfull
    exact ⟨e, t, hrun, (htruncated 2 1).mpr ⟨[1, 2], rfl, hcut⟩⟩
  · obtain ⟨e, t, hrun, -, htruncated⟩ :=
      (truncated_record_refused r _ _ (List.take_prefix 42 _) (by decide)).2 hframe
    exact ⟨e, t, hrun, htruncated (by decide)⟩

end CallCapture
