import CallCapture.Proofs.Wire.Delivery

namespace CallCapture

inductive WireError.Shortage : WireError → Prop
  | io (cause : IoError) : Shortage (.io cause)
  | truncated (part : Part) (declared found : Nat) : Shortage (.malformed (.truncated part declared found))

namespace Decoder

open Source WireError

def WantsBytes {α : Type} (x : Decoder α) : Prop := ∀ s e t, x.run s = .error e t → e.Shortage

namespace WantsBytes

variable {α β : Type} {x : Decoder α}

protected theorem pure (a : α) : WantsBytes (pure a) := by
  intro s e t h
  cases h

protected theorem bind {f : α → Decoder β} (hx : WantsBytes x) (hf : ∀ a, WantsBytes (f a)) : WantsBytes (x >>= f) := by
  intro s e t h
  rw [EStateM.run_bind] at h
  cases hrun : x.run s with
  | ok a u =>
      rw [hrun] at h
      exact hf a u e t h
  | error e' u =>
      rw [hrun] at h
      cases h
      exact hx s e t hrun

protected theorem throw {e : WireError} (he : e.Shortage) : WantsBytes (throw e : Decoder α) := by
  intro s e' t h
  cases h
  exact he

end WantsBytes

theorem wantsBytes_takeUpTo (n : Nat) : WantsBytes (takeUpTo n) := by
  intro s e t h
  simp only [takeUpTo, EStateM.run] at h
  split at h
  · cases h
  · cases h
    exact .io _

theorem wantsBytes_exactly (n : Nat) : WantsBytes (exactly n) := by
  refine (wantsBytes_takeUpTo n).bind fun bytes => ?_
  split
  · exact .bind (.throw (.io _)) fun _ => .pure _
  · exact .pure _

theorem wantsBytes_declared (part : Part) (n : Nat) : WantsBytes (declared part n) := by
  refine (wantsBytes_takeUpTo n).bind fun bytes => ?_
  split
  · exact .pure _
  · exact .throw (.truncated _ _ _)

theorem inherited_wantsBytes : Inherited WantsBytes := ⟨.pure, .bind, wantsBytes_exactly, wantsBytes_declared⟩

def payload : Decoder (List UInt8) := do
  let ⟨payload, _⟩ ← declared .payload (← word 4)
  pure payload

theorem frameAfter_eq (tag : UInt8) :
    frameAfter tag = (do let bytes ← payload; pure (some ⟨tag, bytes⟩)) := by
  simp only [frameAfter, payload, bind_assoc, pure_bind]

/-- The two ways part at the tag, and again behind the payload. -/
theorem framedRecord_plain_cons (tag : UInt8) (bs : List UInt8) (p : Nat) :
    framedRecord.run (plain (tag :: bs) p) =
      if tag ≠ recordTag then .error (.unknownTag tag) (plain bs (p + 1))
      else (do let bytes ← payload; MonadExcept.ofExcept (wholeRecord bytes)).run (plain bs (p + 1)) := by
  have htag : (exactly 1).run (plain (tag :: bs) p) = .ok [tag] (plain bs (p + 1)) := by
    rw [exactly_plain, if_pos (by simp)]
    rfl
  rw [framedRecord, EStateM.run_bind, htag]
  by_cases h : tag ≠ recordTag
  · rw [if_pos h]
    exact congrArg (fun x : Decoder Record => x.run (plain bs (p + 1))) (if_pos h)
  · rw [if_neg h]
    simp only [payload, bind_assoc, pure_bind]
    exact congrArg (fun x : Decoder Record => x.run (plain bs (p + 1))) (if_neg h)

theorem wholeRecord_of_run {bytes : List UInt8} {r : Record} {t : Source} (h : record.run (.ofBytes bytes) = .ok r t) :
    wholeRecord bytes = if t.unread.length ≠ 0 then .error (.malformed (.trailing t.unread.length)) else .ok r := by
  rw [wholeRecord, h]

theorem wholeRecord_of_run_error {bytes : List UInt8} {e : WireError} {t : Source}
    (h : record.run (.ofBytes bytes) = .error e t) : wholeRecord bytes = .error e := by
  rw [wholeRecord, h]

theorem wholeRecord_iff (bytes : List UInt8) :
    (∀ r, wholeRecord bytes = .ok r ↔
      record.outcome (.ofBytes bytes) = .ok r ∧ record.left (.ofBytes bytes) = []) ∧
    (∀ n, wholeRecord bytes = .error (.malformed (.trailing n)) ↔
      (∃ r, record.outcome (.ofBytes bytes) = .ok r) ∧ (record.left (.ofBytes bytes)).length = n ∧ n ≠ 0) ∧
    ∀ e, record.outcome (.ofBytes bytes) = .error e → wholeRecord bytes = .error e := by
  cases hrun : record.run (.ofBytes bytes) with
  | ok r t =>
      have houtcome : record.outcome (.ofBytes bytes) = .ok r := by rw [outcome, hrun]
      have hleft : record.left (.ofBytes bytes) = t.unread := by rw [left, hrun]
      rw [wholeRecord_of_run hrun, houtcome, hleft]
      by_cases hlength : t.unread.length ≠ 0
      · have hne : t.unread ≠ [] := fun h => hlength (congrArg List.length h)
        rw [if_pos hlength]
        refine ⟨fun r' => by simp [hne], fun n => ?_, by simp⟩
        constructor
        · intro h
          cases h
          exact ⟨⟨r, rfl⟩, rfl, hlength⟩
        · rintro ⟨-, rfl, -⟩
          rfl
      · have hnil : t.unread = [] := List.length_eq_zero_iff.mp (not_not.mp hlength)
        rw [if_neg hlength, hnil]
        refine ⟨fun r' => by simp, fun n => ?_, by simp⟩
        constructor
        · intro h
          cases h
        · rintro ⟨-, rfl, h⟩
          exact absurd rfl h
  | error e t =>
      have houtcome : record.outcome (.ofBytes bytes) = .error e := by rw [outcome, hrun]
      rw [wholeRecord_of_run_error hrun, houtcome]
      refine ⟨fun r => by simp, fun n => ?_, fun e' h => by simpa using h⟩
      constructor
      · intro h
        have hshort := inherited_wantsBytes.record _ _ _ hrun
        cases h
        cases hshort
      · rintro ⟨⟨r, h⟩, -⟩
        cases h

theorem outcome_congr {α : Type} {x y : Decoder α} {s t : Source} (h : x.run s = y.run t) :
    x.outcome s = y.outcome t := by
  rw [outcome, outcome, h]

theorem left_congr {α : Type} {x y : Decoder α} {s t : Source} (h : x.run s = y.run t) : x.left s = y.left t := by
  rw [left, left, h]

theorem outcome_ofExcept {α : Type} (r : Except WireError α) (s : Source) :
    (MonadExcept.ofExcept r : Decoder α).outcome s = r := by
  cases r <;> rfl

theorem left_ofExcept {α : Type} (r : Except WireError α) (s : Source) :
    (MonadExcept.ofExcept r : Decoder α).left s = s.unread := by
  cases r <;> rfl

end Decoder

open Decoder

/-- Where bytes begin with the tag of records, the framed record is refused for the reason for which no frame can be
read, if none can. If one can, both ways have then taken this frame and no byte more, and reading the framed record ends
as reading the record from the payload does, but that bytes behind the record are counted and refused. Where bytes begin
with another tag, only this tag is taken. -/
theorem framed_record_read_alike (tag : UInt8) (bs : List UInt8) :
    let s := Source.ofBytes (tag :: bs)
    (tag = recordTag →
      (∀ e, frame?.outcome s = .error e → framedRecord.outcome s = .error e) ∧
      ∀ f, frame?.outcome s = .ok f → ∃ payload rest, f = some ⟨recordTag, payload⟩ ∧
        (∀ r, framedRecord.outcome s = .ok r ↔
          record.outcome (.ofBytes payload) = .ok r ∧ record.left (.ofBytes payload) = []) ∧
        (∀ n, framedRecord.outcome s = .error (.malformed (.trailing n)) ↔
          (∃ r, record.outcome (.ofBytes payload) = .ok r) ∧ (record.left (.ofBytes payload)).length = n ∧ n ≠ 0) ∧
        (∀ e, record.outcome (.ofBytes payload) = .error e → framedRecord.outcome s = .error e) ∧
        frame?.left s = rest ∧ framedRecord.left s = rest ∧
        tag :: bs = Frame.wire ⟨recordTag, payload⟩ ++ rest ∧
        rest.length = (tag :: bs).length - 5 - payload.length) ∧
    (tag ≠ recordTag → framedRecord.outcome s = .error (.unknownTag tag) ∧ framedRecord.left s = bs) := by
  intro s
  refine ⟨?_, fun htag => ?_⟩
  · rintro rfl
    have hframe : frame?.run s = (frameAfter recordTag).run (.plain bs 1) := frame?_plain_cons recordTag bs 0
    have hframed : framedRecord.run s =
        (do let bytes ← payload; MonadExcept.ofExcept (wholeRecord bytes)).run (.plain bs 1) :=
      (framedRecord_plain_cons recordTag bs 0).trans (if_neg (not_not.mpr rfl))
    have haccepts := accepts_frameAfter recordTag bs 1
    rw [frameAfter_eq] at hframe haccepts
    cases hpayload : payload.run (.plain bs 1) with
    | error e t =>
        rw [EStateM.run_bind, hpayload] at hframe hframed
        have houtcome : frame?.outcome s = .error e := by rw [outcome, hframe]
        rw [houtcome]
        refine ⟨fun e' he => ?_, fun f hf => ?_⟩
        · cases he
          rw [outcome, hframed]
        · cases hf
    | ok bytes t =>
        rw [EStateM.run_bind, hpayload] at hframe hframed
        obtain ⟨w, rest, ⟨_, hbytes, -, rfl⟩, rfl, rfl⟩ := (haccepts (some ⟨recordTag, bytes⟩) t).mp
          (by rw [EStateM.run_bind, hpayload]; rfl)
        cases hbytes
        have hfound : frame?.outcome s = .ok (some ⟨recordTag, bytes⟩) := by
          rw [outcome, hframe]
          rfl
        have hleft : frame?.left s = rest := by
          rw [left, hframe]
          rfl
        have hwhole : framedRecord.outcome s = wholeRecord bytes :=
          (outcome_congr hframed).trans (outcome_ofExcept _ _)
        have hframedLeft : framedRecord.left s = rest := (left_congr hframed).trans (left_ofExcept _ _)
        obtain ⟨hok, htrailing, herror⟩ := wholeRecord_iff bytes
        rw [hfound]
        refine ⟨fun e he => ?_, fun f hf => ?_⟩
        · cases he
        · cases hf
          refine ⟨bytes, rest, rfl, ?_, ?_, ?_, hleft, hframedLeft, ?_, ?_⟩
          · rwa [hwhole]
          · rwa [hwhole]
          · rwa [hwhole]
          · rw [Frame.wire_eq_cons, List.cons_append]
          · simp only [List.length_cons, List.length_append, Word.length_encode]
            omega
  · have hframed : framedRecord.run s = .error (.unknownTag tag) (.plain bs 1) :=
      (framedRecord_plain_cons tag bs 0).trans (if_pos htag)
    exact ⟨by rw [outcome, hframed], by rw [left, hframed]; rfl⟩

/-- Behind the record of the first frame stand two bytes, and one stands behind the frame. The second frame has another
tag. -/
theorem trailing_bytes_counted_in_frame :
    let payload := Record.empty.wire ++ [8, 9]
    let s := Source.ofBytes (recordTag :: (Word.encode 4 payload.length ++ payload ++ [7]))
    frame?.outcome s = .ok (some ⟨recordTag, payload⟩) ∧ record.outcome (.ofBytes payload) = .ok Record.empty ∧
      framedRecord.outcome s = .error (.malformed (.trailing 2)) ∧ framedRecord.left s = [7] ∧
      (7 : UInt8) ≠ recordTag ∧ framedRecord.outcome (.ofBytes [7, 0, 0, 0, 0]) = .error (.unknownTag 7) := by
  intro payload s
  have hframe : frame?.run s = .ok (some ⟨recordTag, payload⟩) (.plain [7] 15) :=
    (frame?_plain_cons recordTag _ 0).trans
      ((accepts_frameAfter recordTag _ _ _ _).mpr ⟨_, [7], ⟨payload, rfl, by decide, rfl⟩, rfl, rfl⟩)
  have hrecord : record.run (.ofBytes payload) = .ok Record.empty (.plain [8, 9] 8) :=
    (accepts_record payload 0 Record.empty _).mpr ⟨_, [8, 9], ⟨⟨by decide, by decide⟩, rfl⟩, rfl, rfl⟩
  have hfound : frame?.outcome s = .ok (some ⟨recordTag, payload⟩) := by rw [outcome, hframe]
  have hread : record.outcome (.ofBytes payload) = .ok Record.empty := by rw [outcome, hrecord]
  have hleft : record.left (.ofBytes payload) = [8, 9] := by
    rw [left, hrecord]
    rfl
  obtain ⟨_, rest, hsome, -, htrailing, -, hframeLeft, hframedLeft, -⟩ :=
    ((framed_record_read_alike recordTag _).1 rfl).2 _ hfound
  cases hsome
  have hrest : rest = [7] := by
    rw [← hframeLeft, left, hframe]
    rfl
  refine ⟨hfound, hread, (htrailing 2).mpr ⟨⟨_, hread⟩, by rw [hleft]; rfl, by decide⟩, hframedLeft.trans hrest,
    by decide, ?_⟩
  exact ((framed_record_read_alike 7 [0, 0, 0, 0]).2 (by decide)).1

end CallCapture
