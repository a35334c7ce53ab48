import CallCapture.Proofs.Session.Copies
import CallCapture.Text.Lossy.Lemmas

namespace CallCapture

theorem View.bytes_elements (v : View characterType) (m : Memory) :
    ((v.elements m).map fun c : BitVec 8 => UInt8.ofBitVec c) = m.read v.base v.count := by
  refine List.map_map.trans (List.map_congr_left fun i _ => ?_)
  change UInt8.ofNat (m.byteAt (v.base + i * 1)).toNat = m.byteAt (v.base + i)
  rw [Nat.mul_one, UInt8.ofNat_toNat]

namespace Observer

variable {m n : Memory} {address length : Nat}

theorem readString_of_terminated (hnull : address ≠ 0) (htop : address + length ≤ addressTop)
    (hzero : m.byteAt (address + length) = 0) (hfirst : ∀ i < length, m.byteAt (address + i) ≠ 0) (o : Observer) :
    o.readString m address =
      (.ok (Text.lossy (m.read address length)), o.register .read address (length + 1)) := by
  rw [readString, if_neg hnull, Session.distanceToZero_of_terminated htop hzero hfirst]

theorem readStringView_eq (o : Observer) (m : Memory) (v : View characterType) :
    o.readStringView m v = (Text.lossy (m.read v.base v.count), o.registerRegion .read v.region) := by
  rw [readStringView, v.bytes_elements]

theorem text_readStringView_of_zero (o : Observer) (m : Memory) (v : View characterType) {before after : Nat}
    (hcount : before + 1 + after = v.count) (hzero : m.byteAt (v.base + before) = 0) :
    (o.readStringView m v).1 =
      Text.lossy (m.read v.base before) ++ String.singleton '\x00' ++
        Text.lossy (m.read (v.base + (before + 1)) after) := by
  have hbyte : m.read (v.base + before) 1 = [0] := by
    rw [← hzero]
    rfl
  have hbytes : m.read v.base v.count =
      m.read v.base before ++ 0 :: m.read (v.base + (before + 1)) after := by
    rw [← hcount, Memory.read_add, Memory.read_add, hbyte, List.append_assoc, List.singleton_append]
  rw [readStringView_eq, hbytes]
  exact Text.lossy_append_zero _ _

theorem adds_register {o : Observer} (hc : o.pending.Canonical) (phase : Phase) (base size : Nat) :
    o.Adds (base, size) (o.register phase base size) :=
  adds_of_insertAll hc (pending_enter o (.range phase base size))

end Observer

namespace Session

theorem step_readString_of_ok {s : Session} {address : Nat} {text : String} {p : Observer}
    (h : s.observer.readString s.process.memory address = (.ok text, p)) :
    s.step (.readString address) = (.text text, { s with observer := p }) := by
  simp only [step, h]

theorem step_readStringView {s : Session} {view : String} {v : View characterType}
    (hv : s.views.get? view = some ⟨characterType, v⟩) :
    s.step (.readStringView view) =
      (.text (s.observer.readStringView s.process.memory v).1,
        { s with observer := (s.observer.readStringView s.process.memory v).2 }) := by
  rw [step, withView_of_some hv]
  simp only [TypedView.at?_self]

/-- In every state that a run reaches, a string that ends with the first zero byte behind its address, and a view of the
characters in front of this byte, have the same text. It depends on no other byte but for where the string ends, and
encodes the bytes if they are encoded text. The string adds its bytes and the terminator to what is pending, the view
only the bytes. The text of a view, whatever is in it, is that of all its bytes: what stands before and behind a zero
byte is read apart, and the zero byte itself is a character. -/
theorem strings_read_alike (config : ObserverConfig) (readerOf : Memory → Memory → Reader) (placement : PoolPlacement)
    (source : ChunkSource) (actions : List Action) (m : Memory) :
    let s := (Session.new config readerOf placement source).run actions
    (∀ address length, address ≠ 0 → address + length ≤ addressTop → m.byteAt (address + length) = 0 →
      (∀ i < length, m.byteAt (address + i) ≠ 0) →
      ∀ v : View characterType, v.base = address → v.count = length → ∃ text p q,
        s.observer.readString m address = (.ok text, p) ∧
        s.observer.readStringView m v = (text, q) ∧
        s.observer.Adds (address, length + 1) p ∧
        (address + length < addressTop → ∀ x, x ∈ p.pending ↔
          x ∈ s.observer.pending ∨ address ≤ x ∧ x < address + (length + 1)) ∧
        (∀ x, x ∈ q.pending ↔ x ∈ s.observer.pending ∨ address ≤ x ∧ x < address + length) ∧
        (∀ n : Memory, (∀ x, address ≤ x → x < address + length → n.byteAt x = m.byteAt x) →
          (s.observer.readStringView n v).1 = text ∧
          (n.byteAt (address + length) = 0 → (s.observer.readString n address).1 = .ok text)) ∧
        ((m.read address length).toByteArray.IsValidUTF8 → text.toUTF8 = (m.read address length).toByteArray) ∧
        (s.process.memory = m →
          s.step (.readString address) = (.text text, { s with observer := p }) ∧
          ∀ view, s.views.get? view = some ⟨characterType, v⟩ →
            s.step (.readStringView view) = (.text text, { s with observer := q }))) ∧
    ∀ v : View characterType,
      (s.observer.readStringView m v).1 = Text.lossy (m.read v.base v.count) ∧
      ∀ before after, before + 1 + after = v.count → m.byteAt (v.base + before) = 0 →
        (s.observer.readStringView m v).1 =
          Text.lossy (m.read v.base before) ++ String.singleton '\x00' ++
            Text.lossy (m.read (v.base + (before + 1)) after) := by
  intro s
  have hcanonical : s.observer.pending.Canonical := canonical_pending_run Coverage.canonical_empty actions
  refine ⟨fun address length hnull htop hzero hfirst v hbase hcount => ?_, fun v => ?_⟩
  · subst hbase hcount
    have hstring := Observer.readString_of_terminated hnull htop hzero hfirst s.observer
    have hview := s.observer.readStringView_eq m v
    have hterminated := Observer.adds_register hcanonical .read v.base (v.count + 1)
    have hcharacters : s.observer.Adds (v.base, v.count) (s.observer.registerRegion .read v.region) := by
      have hlength : v.count = v.byteLength := (Nat.mul_one v.count).symm
      rw [hlength]
      exact Observer.adds_registerRegion hcanonical .read v.region
    refine ⟨_, _, _, hstring, hview, hterminated, fun hlt => hterminated.mem_pending hlt, hcharacters.mem_pending htop,
      fun n hn => ?_, Text.toUTF8_lossy, fun hmemory => ?_⟩
    · have hread : n.read v.base v.count = m.read v.base v.count := Memory.read_congr hn
      refine ⟨by rw [Observer.readStringView_eq, hread], fun hend => ?_⟩
      have hstring' := Observer.readString_of_terminated hnull htop hend (fun i hi => ?_) s.observer
      · rw [hstring', hread]
      · rw [hn _ (Nat.le_add_right _ _) (Nat.add_lt_add_left hi _)]
        exact hfirst i hi
    · subst hmemory
      refine ⟨step_readString_of_ok hstring, fun view hv => ?_⟩
      rw [step_readStringView hv, hview]
  · exact ⟨by rw [Observer.readStringView_eq], fun before after hcount hzero =>
      s.observer.text_readStringView_of_zero m v hcount hzero⟩

theorem accented_letter_read_alike :
    let s := (Session.new .lightweight (fun m _ => m.reader) AddressSpace.placePool AddressSpace.placeChunk).run
      [.make "t" characterType 2, .poke AddressSpace.firstPool [0xC3, 0xA9]]
    s.views.get? "t" = some ⟨characterType, AddressSpace.firstPool, 2, .tool .first,
        some ⟨0, .first, AddressSpace.firstPool, 2⟩⟩ ∧
      ∃ text : String, text.toUTF8 = [0xC3, 0xA9].toByteArray ∧
        (s.step (.readString AddressSpace.firstPool)).1 = .text text ∧
        (s.step (.readStringView "t")).1 = .text text := by
  intro s
  have hv : s.views.get? "t" = some ⟨characterType, AddressSpace.firstPool, 2, .tool .first,
      some ⟨0, .first, AddressSpace.firstPool, 2⟩⟩ := rfl
  obtain ⟨hread, -⟩ := strings_read_alike .lightweight (fun m _ => m.reader) AddressSpace.placePool
    AddressSpace.placeChunk [.make "t" characterType 2, .poke AddressSpace.firstPool [0xC3, 0xA9]] s.process.memory
  let v : View characterType :=
    ⟨AddressSpace.firstPool, 2, .tool .first, some ⟨0, .first, AddressSpace.firstPool, 2⟩⟩
  obtain ⟨text, p, q, -, -, -, -, -, -, hvalid, hstep⟩ := hread AddressSpace.firstPool 2 (by decide) (by decide)
    (by decide) (by decide) v rfl rfl
  obtain ⟨hstring, hview⟩ := hstep rfl
  refine ⟨hv, text, hvalid (by decide), ?_, ?_⟩
  · rw [hstring]
  · rw [hview "t" hv]

end Session

end CallCapture
