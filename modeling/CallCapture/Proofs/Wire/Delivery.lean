import CallCapture.Proofs.Wire.Frames

namespace CallCapture

namespace Source

/-- Every call hands out something, but for interruptions and the end of the data. -/
structure Steady (s : Source) : Prop where
  moves : s.chunk ≠ some 0
  lasts : s.failAt = none

def smooth (s : Source) : Source := plain s.unread s.position

variable {s t : Source} {n : Nat}

theorem lt_foldl_min {l : List Nat} (hl : ∀ d ∈ l, 0 < d) (hn : 0 < n) : 0 < l.foldl min n := by
  induction l generalizing n with
  | nil => exact hn
  | cons d l ih =>
      obtain ⟨hd, hl⟩ := List.forall_mem_cons.mp hl
      exact ih hl (Nat.lt_min.mpr ⟨hn, hd⟩)

theorem reach_le_length (s : Source) (n : Nat) : s.reach n ≤ s.unread.length :=
  Nat.le_trans (foldl_min_le _ _) (Nat.le_trans (Nat.min_le_right _ _) (Nat.min_le_right _ _))

theorem reach_pos (hmoves : s.chunk ≠ some 0) (hn : n ≠ 0) (hunread : s.unread ≠ []) : 0 < s.reach n := by
  apply lt_foldl_min
  · intro d hd
    obtain ⟨mark, hmark, rfl⟩ := List.mem_map.mp hd
    have hlt : s.position < mark := of_decide_eq_true (List.mem_filter.mp hmark).2
    omega
  · have hlength := List.length_pos_iff.mpr hunread
    cases hchunk : s.chunk with
    | none => simp only [Option.getD_none]; omega
    | some k =>
        rw [hchunk] at hmoves
        have hk : k ≠ 0 := fun hk => hmoves (congrArg some hk)
        simp only [Option.getD_some]
        omega

theorem call_of_unmarked (hmoves : s.chunk ≠ some 0) (hn : n ≠ 0) (hmem : s.position ∉ s.interrupts)
    (hlasts : s.failAt ≠ some s.position) (hunread : s.unread ≠ []) :
    ∃ b bytes, 0 < s.reach n ∧ s.unread.take (s.reach n) = b :: bytes ∧
      s.call n = .ok (b :: bytes) (s.advance (s.reach n)) := by
  have hpos := reach_pos hmoves hn hunread
  have htaken : 0 < (s.unread.take (s.reach n)).length := by rwa [List.length_take_of_le (s.reach_le_length n)]
  obtain ⟨b, bytes, htaken⟩ := List.exists_cons_of_length_pos htaken
  exact ⟨b, bytes, hpos, htaken, by rw [call, if_neg hn, if_neg hmem, if_neg hlasts, htaken]⟩

def resumed (s : Source) : Source := { s with interrupts := s.interrupts.erase s.position }

theorem call_zero (s : Source) : s.call 0 = .ok [] s := if_pos rfl

theorem call_of_mem (hn : n ≠ 0) (h : s.position ∈ s.interrupts) : s.call n = .error .interrupted s.resumed := by
  rw [call, if_neg hn, if_pos h, resumed]

theorem Steady.resumed (h : s.Steady) : s.resumed.Steady := ⟨h.moves, h.lasts⟩

theorem Steady.advance (h : s.Steady) (k : Nat) : (s.advance k).Steady := ⟨h.moves, h.lasts⟩

theorem Steady.call_cases (h : s.Steady) (hn : n ≠ 0) (hmem : s.position ∉ s.interrupts) :
    (s.unread = [] ∧ s.call n = .ok [] s) ∨
      ∃ k b bytes, 0 < k ∧ k ≤ n ∧ k ≤ s.unread.length ∧ s.unread.take k = b :: bytes ∧
        s.call n = .ok (b :: bytes) (s.advance k) := by
  have hlasts : s.failAt ≠ some s.position := by
    rw [h.lasts]
    exact (Option.some_ne_none _).symm
  by_cases hunread : s.unread = []
  · have hzero : s.reach n = 0 := by
      have hle := s.reach_le_length n
      rw [hunread, List.length_nil] at hle
      omega
    refine .inl ⟨hunread, ?_⟩
    rw [call, if_neg hn, if_neg hmem, if_neg hlasts, hzero]
    rfl
  · obtain ⟨b, bytes, hpos, htaken, hcall⟩ := call_of_unmarked h.moves hn hmem hlasts hunread
    exact .inr ⟨s.reach n, b, bytes, hpos, s.reach_le n, s.reach_le_length n, htaken, hcall⟩

theorem gather_of_call_interrupted (h : s.call n = .error .interrupted t) : s.gather n = t.gather n := by
  rw [gather]
  split <;> simp_all

/-- Whatever the pieces and the interruptions, asking for `n` bytes gives the next `n` bytes, or all there are. -/
theorem Steady.gather (h : s.Steady) (n : Nat) :
    ∃ t, s.gather n = .ok (s.unread.take n) t ∧ t.Steady ∧
      t.smooth = plain (s.unread.drop n) (s.position + min n s.unread.length) := by
  -- each call takes an interruption away or brings some of the bytes that are asked for
  induction hm : n + s.interrupts.length using Nat.strongRecOn generalizing n s with
  | ind m ih =>
      by_cases hn : n = 0
      · subst hn
        exact ⟨s, gather_of_call_nil s.call_zero, h, by simp [smooth]⟩
      · by_cases hmem : s.position ∈ s.interrupts
        · have hcall := call_of_mem hn hmem
          have hfewer := interrupts_of_call_interrupted hcall
          rw [gather_of_call_interrupted hcall]
          exact ih _ (by omega) h.resumed n rfl
        · rcases h.call_cases hn hmem with ⟨hunread, hcall⟩ | ⟨k, b, bytes, hpos, hkn, hk, htaken, hcall⟩
          · refine ⟨s, ?_, h, ?_⟩
            · rw [gather_of_call_nil hcall, hunread, List.take_nil]
            · simp [smooth, hunread]
          · have hlen : (b :: bytes).length = k := by rw [← htaken, List.length_take_of_le hk]
            have hsplit : k + (n - k) = n := by omega
            have htake : s.unread.take k ++ (s.unread.drop k).take (n - k) = s.unread.take n := by
              rw [← List.take_add, hsplit]
            have hposition : s.position + k + min (n - k) (s.unread.length - k) =
                s.position + min n s.unread.length := by omega
            obtain ⟨t, hgather, hsteady, hsmooth⟩ :=
              ih (n - k + s.interrupts.length) (by omega) (h.advance k) (n - k) rfl
            refine ⟨t, ?_, hsteady, ?_⟩
            · rw [gather_of_call_cons hcall, hlen, hgather, ← htaken, ← htake]
              rfl
            · rw [hsmooth, Source.advance, List.drop_drop, List.length_drop, hsplit, hposition]

end Source

open Source

namespace Decoder

/-- A decoder has the property as soon as its parts have it. -/
structure Inherited (Q : {α : Type} → Decoder α → Prop) : Prop where
  pure {α : Type} (a : α) : Q (pure a)
  bind {α β : Type} {x : Decoder α} {f : α → Decoder β} : Q x → (∀ a, Q (f a)) → Q (x >>= f)
  exactly (n : Nat) : Q (exactly n)
  declared (part : Part) (n : Nat) : Q (declared part n)

namespace Inherited

variable {Q : {α : Type} → Decoder α → Prop} (h : Inherited Q)
include h

theorem map {α β : Type} {x : Decoder α} (hx : Q x) (f : α → β) : Q (f <$> x) := by
  rw [map_eq_pure_bind]
  exact h.bind hx fun a => h.pure (f a)

theorem word (width : Nat) : Q (word width) := h.map (h.exactly width) _

theorem observation : Q observation :=
  h.bind (h.map (h.word 8) _) fun _ => h.bind (h.map (h.word 8) _) fun length =>
    h.bind (h.declared .observation length.toNat) fun _ => h.pure _

theorem observations (count : Nat) : Q (observations count) := by
  induction count with
  | zero => exact h.pure []
  | succ count ih => exact h.bind h.observation fun _ => h.bind ih fun _ => h.pure _

theorem record : Q record :=
  h.bind (h.word 4) fun m => h.bind (h.observations m) fun _ =>
    h.bind (h.word 4) fun n => h.bind (h.observations n) fun _ => h.pure _

theorem frameAfter (tag : UInt8) : Q (frameAfter tag) :=
  h.bind (h.word 4) fun n => h.bind (h.declared .payload n) fun _ => h.pure _

theorem framedRecord (htag : ∀ tag, Q (throw (.unknownTag tag) : Decoder PUnit))
    (hwhole : ∀ payload, Q (MonadExcept.ofExcept (wholeRecord payload) : Decoder Record)) : Q framedRecord := by
  have hrest := h.bind (h.word 4) fun n => h.bind (h.declared .payload n) fun payload => hwhole payload.1
  refine h.bind (h.exactly 1) fun tag => ?_
  dsimp only
  split
  · exact h.bind (htag _) fun _ => hrest
  · exact hrest

end Inherited

/-- The same answer, and the same data left behind it. No failure is an interruption. -/
inductive Agree {α : Type} : EStateM.Result WireError Source α → EStateM.Result WireError Source α → Prop
  | ok (a : α) {t : Source} : t.Steady → Agree (.ok a t) (.ok a t.smooth)
  | error {e : WireError} {t : Source} : e ≠ .io .interrupted → t.Steady → Agree (.error e t) (.error e t.smooth)

def Patient {α : Type} (x : Decoder α) : Prop := ∀ s : Source, s.Steady → Agree (x.run s) (x.run s.smooth)

variable {α β : Type} {x y : Decoder α}

protected theorem Agree.bind {s t : Source} {f : α → Decoder β} (h : Agree (x.run s) (x.run t))
    (hf : ∀ a, Patient (f a)) : Agree ((x >>= f).run s) ((x >>= f).run t) := by
  simp only [EStateM.run, bind, EStateM.bind] at h ⊢
  generalize x s = r, x t = r' at h ⊢
  cases h with
  | ok a ht => exact hf a _ ht
  | error he ht => exact .error he ht

namespace Patient

protected theorem pure (a : α) : Patient (pure a) := fun _ hs => .ok a hs

protected theorem throw {e : WireError} (he : e ≠ .io .interrupted) : Patient (throw e : Decoder α) :=
  fun _ hs => .error he hs

protected theorem ofExcept {r : Except WireError α} (hr : r ≠ .error (.io .interrupted)) :
    Patient (MonadExcept.ofExcept r : Decoder α) := by
  cases r with
  | ok a => exact Patient.pure a
  | error e => exact Patient.throw fun he => hr (congrArg Except.error he)

protected theorem bind {f : α → Decoder β} (hx : Patient x) (hf : ∀ a, Patient (f a)) : Patient (x >>= f) :=
  fun s hs => (hx s hs).bind hf

protected theorem ite {c : Prop} [Decidable c] (hx : Patient x) (hy : Patient y) : Patient (if c then x else y) := by
  split
  · exact hx
  · exact hy

end Patient

theorem patient_takeUpTo (n : Nat) : Patient (takeUpTo n) := by
  intro s hs
  obtain ⟨t, hgather, ht, hsmooth⟩ := hs.gather n
  have hrun : (takeUpTo n).run s = .ok (s.unread.take n) t := by simp only [takeUpTo, EStateM.run, hgather]
  have hplain : (takeUpTo n).run s.smooth = .ok (s.unread.take n) t.smooth := by
    simp only [takeUpTo, EStateM.run, smooth, gather_plain] at hsmooth ⊢
    rw [hsmooth]
  rw [hrun, hplain]
  exact .ok _ ht

theorem patient_exactly (n : Nat) : Patient (exactly n) :=
  (patient_takeUpTo n).bind fun _ => .ite (.bind (.throw nofun) fun _ => .pure _) (.pure _)

theorem patient_declared (part : Part) (n : Nat) : Patient (declared part n) := by
  refine (patient_takeUpTo n).bind fun bytes => ?_
  split
  · exact .pure _
  · exact .throw nofun

theorem inherited_patient : Inherited Patient := ⟨.pure, .bind, patient_exactly, patient_declared⟩

theorem patient_record : Patient record := inherited_patient.record

theorem wholeRecord_ne_interrupted (payload : List UInt8) : wholeRecord payload ≠ .error (.io .interrupted) := by
  have h := patient_record (.ofBytes payload) ⟨nofun, rfl⟩
  simp only [wholeRecord]
  generalize record.run (.ofBytes payload) = r, record.run (Source.ofBytes payload).smooth = r' at h
  cases h with
  | ok r ht =>
      dsimp only
      split <;> simp
  | error he ht => exact fun h => he (Except.error.inj h)

theorem patient_framedRecord : Patient framedRecord :=
  inherited_patient.framedRecord (fun _ => .throw nofun) fun payload => .ofExcept (wholeRecord_ne_interrupted payload)

/-- Between two frames there is nothing to repeat the call for. -/
theorem agree_byte? {s : Source} (hs : s.Steady) (h : s.position ∉ s.interrupts) :
    Agree (byte?.run s) (byte?.run s.smooth) := by
  have hplain : s.smooth.call 1 =
      .ok (s.unread.take 1) (plain (s.unread.drop 1) (s.position + min 1 s.unread.length)) :=
    call_plain 1 s.unread s.position
  rcases hs.call_cases Nat.one_ne_zero h with ⟨hunread, hcall⟩ | ⟨k, b, bytes, hpos, hone, hk, htaken, hcall⟩
  · have hrest : plain (s.unread.drop 1) (s.position + min 1 s.unread.length) = s.smooth := by simp [smooth, hunread]
    rw [hrest, hunread] at hplain
    simp only [byte?, EStateM.run, hcall, hplain]
    exact .ok _ hs
  · obtain rfl : k = 1 := Nat.le_antisymm hone hpos
    have hrest : plain (s.unread.drop 1) (s.position + min 1 s.unread.length) = (s.advance 1).smooth := by
      rw [Nat.min_eq_left hk]
      rfl
    rw [hrest, htaken] at hplain
    simp only [byte?, EStateM.run, hcall, hplain]
    exact .ok _ (hs.advance 1)

theorem agree_frame? {s : Source} (hs : s.Steady) (h : s.position ∉ s.interrupts) :
    Agree (frame?.run s) (frame?.run s.smooth) := by
  refine (agree_byte? hs h).bind fun tag? => ?_
  cases tag? with
  | none => exact .pure none
  | some tag => exact inherited_patient.frameAfter tag

def outcome {α : Type} (x : Decoder α) (s : Source) : Except WireError α :=
  match x.run s with
  | .ok a _ => .ok a
  | .error e _ => .error e

def left {α : Type} (x : Decoder α) (s : Source) : List UInt8 :=
  match x.run s with
  | .ok _ t => t.unread
  | .error _ t => t.unread

theorem Patient.outcome {s : Source} (hx : Patient x) (hs : s.Steady) : x.outcome s = x.outcome s.smooth := by
  have h := hx s hs
  simp only [Decoder.outcome]
  generalize x.run s = r, x.run s.smooth = r' at h
  cases h <;> rfl

end Decoder

namespace Source

open Decoder

variable {s t : Source}

theorem nextFrame_of_mem (h : s.position ∈ s.interrupts) : s.nextFrame = (.error (.io .interrupted), s.resumed) := by
  have hrun : frame?.run s = .error (.io .interrupted) s.resumed := by
    simp only [frame?, byte?, EStateM.run, bind, EStateM.bind, call_of_mem Nat.one_ne_zero h]
  rw [nextFrame, hrun]

theorem unread_of_nextFrame_plain {bs : List UInt8} {p : Nat} {f : Frame}
    (h : (plain bs p).nextFrame = (.ok (some f), t)) : t.unread.length < bs.length := by
  cases bs with
  | nil => cases h
  | cons tag bs =>
      rw [nextFrame, frame?_plain_cons] at h
      cases hrun : (frameAfter tag).run (plain bs (p + 1)) with
      | error e u =>
          rw [hrun] at h
          cases h
      | ok f' u =>
          rw [hrun] at h
          cases h
          obtain ⟨w, rest, -, rfl, rfl⟩ := (accepts_frameAfter tag _ _ _ _).mp hrun
          simp only [plain, List.length_cons, List.length_append]
          omega

theorem Steady.nextFrame_of_not_mem (hs : s.Steady) (h : s.position ∉ s.interrupts) :
    ∃ outcome t, s.nextFrame = (outcome, t) ∧ s.smooth.nextFrame = (outcome, t.smooth) ∧ t.Steady ∧
      outcome ≠ .error (.io .interrupted) ∧
      ∀ f, outcome = .ok (some f) → t.unread.length < s.unread.length := by
  have hagree := agree_frame? hs h
  have hlt : ∀ f t, s.smooth.nextFrame = (.ok (some f), t) → t.unread.length < s.unread.length :=
    fun f t => unread_of_nextFrame_plain
  simp only [Source.nextFrame] at hlt ⊢
  generalize frame?.run s = r, frame?.run s.smooth = r' at hagree hlt
  cases hagree with
  | @ok f t ht =>
      refine ⟨_, t, rfl, rfl, ht, by simp, fun g hg => ?_⟩
      cases hg
      exact hlt g t.smooth rfl
  | @error e t he ht => exact ⟨_, t, rfl, rfl, ht, fun h => he (Except.error.inj h), by simp⟩

theorem Steady.nextFrame (hs : s.Steady) : s.nextFrame.2.Steady := by
  by_cases h : s.position ∈ s.interrupts
  · rw [nextFrame_of_mem h]
    exact hs.resumed
  · obtain ⟨_, t, ht, -, hsteady, -⟩ := hs.nextFrame_of_not_mem h
    rw [ht]
    exact hsteady

theorem Steady.attempts (hs : s.Steady) (count : Nat) : (s.attempts count).2.Steady := by
  induction count generalizing s with
  | zero => exact hs
  | succ count ih => exact ih hs.nextFrame

theorem Steady.nextFrame_interrupted_iff (hs : s.Steady) :
    s.nextFrame.1 = .error (.io .interrupted) ↔ s.position ∈ s.interrupts := by
  by_cases h : s.position ∈ s.interrupts
  · rw [nextFrame_of_mem h]
    exact iff_of_true rfl h
  · obtain ⟨_, t, ht, -, -, hne, -⟩ := hs.nextFrame_of_not_mem h
    rw [ht]
    exact iff_of_false hne h

theorem Steady.attempts_interrupted (hs : s.Steady) :
    ∃ (k : Nat) (u : Source), u.Steady ∧ u.smooth = s.smooth ∧ u.position ∉ u.interrupts ∧
      ∀ more, (s.attempts (k + more)).1 =
        List.replicate k (.error (.io .interrupted)) ++ (u.attempts more).1 := by
  induction hn : s.interrupts.length using Nat.strongRecOn generalizing s with
  | ind n ih =>
      by_cases h : s.position ∈ s.interrupts
      · have hfewer := interrupts_of_call_interrupted (call_of_mem Nat.one_ne_zero h)
        obtain ⟨k, u, hu, hsmooth, hnot, hattempts⟩ := ih _ (hn ▸ hfewer) hs.resumed rfl
        refine ⟨k + 1, u, hu, hsmooth, hnot, fun more => ?_⟩
        rw [Nat.add_right_comm, Source.attempts, nextFrame_of_mem h]
        exact congrArg (List.cons _) (hattempts more)
      · exact ⟨0, s, hs, rfl, h, fun more => by rw [Nat.zero_add]; rfl⟩

end Source

namespace FrameOutcome

def isInterrupted : FrameOutcome → Bool
  | .ok _ => false
  | .error e => e = .io .interrupted

/-- The end of the data, or a failure that is no interruption. -/
def isLast : FrameOutcome → Bool
  | .ok f => f = none
  | .error e => e ≠ .io .interrupted

theorem isLast_or (o : FrameOutcome) :
    isLast o = true ∨ o = .error (.io .interrupted) ∨ ∃ f, o = .ok (some f) := by
  cases o with
  | ok f => cases f <;> simp [isLast]
  | error e => by_cases he : e = .io .interrupted <;> simp [isLast, he]

end FrameOutcome

open FrameOutcome

namespace Source

theorem framesWithin_of_isLast {s t : Source} {o : FrameOutcome} (h : s.nextFrame = (o, t)) (ho : isLast o = true)
    (bound : Nat) : s.framesWithin (bound + 1) = ([o], t) := by
  rw [framesWithin, h]
  cases o with
  | ok f =>
      cases f with
      | none => rfl
      | some f => cases ho
  | error e => rfl

theorem Steady.attempts_until_last {s : Source} (hs : s.Steady) {bound : Nat} (hb : s.unread.length < bound) :
    ∃ earlier last, (s.attempts (earlier.length + 1)).1 = earlier ++ [last] ∧
      (∀ o ∈ earlier, isLast o = false) ∧ isLast last = true ∧
      (s.smooth.framesWithin bound).1 = earlier.filter (!isInterrupted ·) ++ [last] := by
  induction bound generalizing s with
  | zero => exact absurd hb (Nat.not_lt_zero _)
  | succ bound ih =>
      obtain ⟨k, u, hu, hsmooth, hnot, hattempts⟩ := hs.attempts_interrupted
      obtain ⟨o, t, hnext, hplain, ht, hne, hlt⟩ := hu.nextFrame_of_not_mem hnot
      let skipped : List FrameOutcome := List.replicate k (.error (.io .interrupted))
      have hlength : skipped.length = k := List.length_replicate
      have hskipped : ∀ o ∈ skipped, isLast o = false := fun o ho => by rw [List.eq_of_mem_replicate ho]; rfl
      have hfiltered : skipped.filter (!isInterrupted ·) = [] := by simp [skipped, isInterrupted]
      have hunread : u.smooth.unread = s.smooth.unread := congrArg Source.unread hsmooth
      rw [← hsmooth]
      rcases isLast_or o with ho | rfl | ⟨f, rfl⟩
      · refine ⟨skipped, o, ?_, hskipped, ho, ?_⟩
        · rw [hlength, hattempts 1, Source.attempts, hnext]
          rfl
        · rw [framesWithin_of_isLast hplain ho, hfiltered]
          rfl
      · exact absurd rfl hne
      · have hfewer : t.unread.length < bound := by
          have hless : t.unread.length < u.smooth.unread.length := hlt f rfl
          rw [hunread] at hless
          exact Nat.lt_of_lt_of_le hless (Nat.le_of_lt_succ hb)
        obtain ⟨earlier, last, hlast, hearlier, hisLast, hframes⟩ := ih ht hfewer
        refine ⟨skipped ++ .ok (some f) :: earlier, last, ?_, ?_, hisLast, ?_⟩
        · rw [List.length_append, hlength, List.length_cons, Nat.add_assoc, hattempts, Source.attempts, hnext,
            List.append_assoc]
          exact congrArg (fun l => skipped ++ .ok (some f) :: l) hlast
        · intro o ho
          rcases List.mem_append.mp ho with ho | ho
          · exact hskipped o ho
          · rcases List.mem_cons.mp ho with rfl | ho
            · rfl
            · exact hearlier o ho
        · rw [framesWithin, hplain, List.filter_append, hfiltered]
          exact congrArg (List.cons _) hframes

/-- Bytes handed out at most `chunk` at a time, with an interruption for each mention of a place. -/
def interruptible (bytes : List UInt8) (chunk : Option Nat) (interrupts : List Nat) : Source :=
  ⟨bytes, 0, chunk, interrupts, none⟩

end Source

/-- Pieces and interruptions do not show in the records that are read, or in the failures to read one. They show between
frames only: an attempt at a place with an interruption is interrupted, which uses up this interruption and no byte. The
attempts up to the last one give what is read from the same bytes in one piece, but for the interruptions. -/
theorem delivery_hidden (bytes : List UInt8) (chunk : Option Nat) (interrupts : List Nat) (moves : chunk ≠ some 0) :
    let s := Source.interruptible bytes chunk interrupts
    Decoder.record.outcome s = Decoder.record.outcome (.ofBytes bytes) ∧
    Decoder.framedRecord.outcome s = Decoder.framedRecord.outcome (.ofBytes bytes) ∧
    (∀ count, let t := (s.attempts count).2
      (t.nextFrame.1 = .error (.io .interrupted) ↔ t.position ∈ t.interrupts) ∧
      (t.nextFrame.1 = .error (.io .interrupted) →
        t.nextFrame.2 = { t with interrupts := t.interrupts.erase t.position })) ∧
    ∃ earlier last, (s.attempts (earlier.length + 1)).1 = earlier ++ [last] ∧
      (∀ o ∈ earlier, isLast o = false) ∧ isLast last = true ∧
      (Source.ofBytes bytes).frames.1 = earlier.filter (!isInterrupted ·) ++ [last] := by
  intro s
  have hs : s.Steady := ⟨moves, rfl⟩
  refine ⟨Decoder.patient_record.outcome hs, Decoder.patient_framedRecord.outcome hs, fun count => ?_,
    hs.attempts_until_last (Nat.lt_succ_self _)⟩
  have hrest := hs.attempts count
  refine ⟨hrest.nextFrame_interrupted_iff, fun h => ?_⟩
  rw [Source.nextFrame_of_mem (hrest.nextFrame_interrupted_iff.mp h)]
  rfl

theorem frame_read_byte_by_byte :
    let s := Source.interruptible [7, 1, 0, 0, 0, 9] (some 1) [0, 3, 6, 6]
    s.nextFrame.1 = .error (.io .interrupted) ∧
    ∃ earlier last, (s.attempts (earlier.length + 1)).1 = earlier ++ [last] ∧
      earlier.filter (!isInterrupted ·) ++ [last] = [.ok (some ⟨7, [9]⟩), .ok none] := by
  intro s
  obtain ⟨-, -, hattempts, earlier, last, hlast, -, -, hframes⟩ :=
    delivery_hidden [7, 1, 0, 0, 0, 9] (some 1) [0, 3, 6, 6] (by decide)
  have hplain := Source.frames_ofBytes_wires (show ∀ f ∈ [Frame.mk 7 [9]], f.payload.length < 2 ^ 32 by decide)
  refine ⟨(hattempts 0).1.mpr (by decide), earlier, last, hlast, ?_⟩
  rw [← hframes]
  exact hplain

end CallCapture
