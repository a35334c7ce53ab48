import CallCapture.Observer.Extras
import CallCapture.Proofs.Wire.RoundTrip
import Mathlib.Data.List.Forall2

namespace CallCapture

/-- The frame has the tag and the payload of what is attached. From the payload of the call's own record the record
is read back, and nothing is left over. -/
inductive Attachment.SentAs (record : Option Record) : Attachment → Frame → Prop
  | external {x : Extra} {payload : List UInt8} (written : x.encode.bytes? = .ok payload) :
      SentAs record (.external x) ⟨x.tag, payload⟩
  | record {r : Record} {payload : List UInt8} {s : Source} (current : record = some r)
      (written : (Encoder.record r).bytes? = .ok payload)
      (read : Decoder.record.run (.ofBytes payload) = .ok r s) (all : s.unread = []) :
      SentAs record .record ⟨recordTag, payload⟩

theorem Attachment.sentAs_record {r : Record} {payload : List UInt8} (h : (Encoder.record r).bytes? = .ok payload) :
    SentAs (some r) .record ⟨recordTag, payload⟩ := by
  obtain ⟨s, hread, hall⟩ := (read_record_iff payload [] r).mpr ⟨payload, h, (List.append_nil payload).symm⟩
  exact .record rfl h hread hall

namespace Extras

variable {x y : Extras} {item : AttachedExtra}

theorem walk_of_next? (h : x.next? = some (item, y)) : x.walk = ((x, item) :: y.walk.1, y.walk.2) := by
  rw [walk]
  split
  · rename_i hnone
    rw [h] at hnone
    cases hnone
  · rename_i hsome
    rw [h] at hsome
    cases hsome
    rfl

theorem items_of_next? (h : x.next? = some (item, y)) : x.items = item :: y.items := by
  rw [items, walk_of_next? h]
  rfl

theorem walk_nil (record : Option Record) : walk ⟨[], record⟩ = ([], ⟨[], record⟩) := by
  rw [walk]
  rfl

theorem items_nil (record : Option Record) : items ⟨[], record⟩ = [] := by
  rw [items, walk_nil]
  rfl

theorem encode_of_next? (h : x.next? = some (item, y)) : x.encode = (do item.toExtra.frame; y.encode) := by
  rw [encode, items_of_next? h]
  rfl

end Extras

theorem Attachment.SentAs.next? {record : Option Record} {a : Attachment} {f : Frame} (h : a.SentAs record f)
    (hl : f.payload.length < 2 ^ 32) (rest : List Attachment) :
    ∃ item : AttachedExtra, Extras.next? ⟨a :: rest, record⟩ = some (item, ⟨rest, record⟩) ∧
      item.toExtra.frame = Encoder.put f.wire := by
  cases h with
  | external written => exact ⟨.external _, rfl, Encoder.frame_eq_put written hl⟩
  | record current written =>
      subst current
      exact ⟨.record _, rfl, Encoder.frame_eq_put (x := .ofRecord _) written hl⟩

theorem Extras.encode_run {record : Option Record} {entries : List Attachment} {fs : List Frame}
    (h : List.Forall₂ (Attachment.SentAs record) entries fs) (hl : ∀ f ∈ fs, f.payload.length < 2 ^ 32)
    (written : List UInt8) :
    (encode ⟨entries, record⟩).run ⟨written, none⟩ = .ok () ⟨written ++ fs.flatMap Frame.wire, none⟩ := by
  -- what is written so far changes with every frame, so the induction is for any of it
  induction h generalizing written with
  | nil =>
      rw [encode, items_nil, List.flatMap_nil, List.append_nil]
      rfl
  | @cons a f entries fs hsent _ ih =>
      obtain ⟨item, hnext, hframe⟩ := hsent.next? (hl f List.mem_cons_self) entries
      have hrest := ih (fun g hg => hl g (List.mem_cons_of_mem f hg)) (written ++ f.wire)
      rw [encode_of_next? hnext, hframe, List.flatMap_cons, ← List.append_assoc]
      exact hrest

theorem Extras.exists_sentAs {record : Option Record} {entries : List Attachment}
    (h : ∀ a ∈ entries, ∃ f, a.SentAs record f ∧ f.payload.length < 2 ^ 32) :
    ∃ fs, List.Forall₂ (Attachment.SentAs record) entries fs ∧ ∀ f ∈ fs, f.payload.length < 2 ^ 32 := by
  induction entries with
  | nil => exact ⟨[], .nil, by simp⟩
  | cons a entries ih =>
      obtain ⟨f, hf, hl⟩ := h a List.mem_cons_self
      obtain ⟨fs, hfs, hls⟩ := ih fun b hb => h b (List.mem_cons_of_mem a hb)
      exact ⟨f :: fs, .cons hf hfs, List.forall_mem_cons.mpr ⟨hl, hls⟩⟩

end CallCapture
