import CallCapture.Proofs.Wire.Delivery

namespace CallCapture

namespace Source

variable {s t : Source} {n room : Nat}

theorem foldl_min_le_of_mem {l : List Nat} {d : Nat} (hd : d ∈ l) (n : Nat) : l.foldl min n ≤ d := by
  induction l generalizing n with
  | nil => cases hd
  | cons a l ih =>
      rcases List.mem_cons.mp hd with rfl | hd
      · exact Nat.le_trans (foldl_min_le l _) (Nat.min_le_right _ _)
      · exact ih hd _

theorem advance_advance (s : Source) (j k : Nat) : (s.advance j).advance k = s.advance (j + k) := by
  simp only [Source.advance, List.drop_drop, Nat.add_assoc]

theorem gather_of_call_timedOut (h : s.call n = .error .timedOut t) :
    s.gather n = .error .timedOut t := by
  rw [gather]
  split <;> simp_all

/-- The device breaks down behind the next `room` bytes. -/
structure Fragile (s : Source) (room : Nat) : Prop where
  moves : s.chunk ≠ some 0
  calm : s.interrupts = []
  breaks : s.failAt = some (s.position + room)

theorem Fragile.advance (h : s.Fragile room) {k : Nat} (hk : k ≤ room) : (s.advance k).Fragile (room - k) := by
  have hmark : s.position + room = s.position + k + (room - k) := by omega
  exact ⟨h.moves, h.calm, h.breaks.trans (congrArg some hmark)⟩

theorem Fragile.reach_le_room (h : s.Fragile room) (hroom : room ≠ 0) (n : Nat) : s.reach n ≤ room := by
  have hmark : s.position + room ∈ (s.interrupts ++ s.failAt.toList).filter (s.position < ·) := by
    rw [h.calm, h.breaks]
    simp only [List.nil_append, Option.toList_some, List.mem_filter, List.mem_singleton, true_and, decide_eq_true_eq]
    omega
  have hdistance : s.position + room - s.position = room := Nat.add_sub_cancel_left _ _
  exact foldl_min_le_of_mem (List.mem_map.mpr ⟨s.position + room, hmark, hdistance⟩) _

theorem Fragile.call_of_broken (h : s.Fragile 0) (hn : n ≠ 0) : s.call n = .error .timedOut s := by
  have hmem : s.position ∉ s.interrupts := by simp [h.calm]
  have hlasts : s.failAt = some s.position := h.breaks
  rw [call, if_neg hn, if_neg hmem, if_pos hlasts]

theorem Fragile.call_of_room (h : s.Fragile room) (hroom : room ≠ 0) (hn : n ≠ 0) (hunread : s.unread ≠ []) :
    ∃ k b bytes, 0 < k ∧ k ≤ n ∧ k ≤ room ∧ k ≤ s.unread.length ∧ s.unread.take k = b :: bytes ∧
      s.call n = .ok (b :: bytes) (s.advance k) := by
  have hmem : s.position ∉ s.interrupts := by simp [h.calm]
  have hlasts : s.failAt ≠ some s.position := by
    rw [h.breaks]
    simpa using hroom
  obtain ⟨b, bytes, hpos, htaken, hcall⟩ := call_of_unmarked h.moves hn hmem hlasts hunread
  exact ⟨s.reach n, b, bytes, hpos, s.reach_le n, h.reach_le_room hroom n, s.reach_le_length n, htaken, hcall⟩

theorem Fragile.gather (h : s.Fragile room) (hunread : min n room ≤ s.unread.length) :
    s.gather n = if n ≤ room then .ok (s.unread.take n) (s.advance n) else .error .timedOut (s.advance room) := by
  induction n using Nat.strongRecOn generalizing s room with
  | ind n ih =>
      by_cases hn : n = 0
      · subst hn
        rw [if_pos (Nat.zero_le room)]
        exact gather_of_call_nil s.call_zero
      · by_cases hroom : room = 0
        · subst hroom
          rw [if_neg (Nat.not_le.mpr (Nat.pos_of_ne_zero hn))]
          exact gather_of_call_timedOut (h.call_of_broken hn)
        · have hne : s.unread ≠ [] := List.ne_nil_of_length_pos (by omega)
          obtain ⟨k, b, bytes, hpos, hkn, hk, hlength, htaken, hcall⟩ := h.call_of_room hroom hn hne
          have hlen : (b :: bytes).length = k := by rw [← htaken, List.length_take_of_le hlength]
          have hdropped : min (n - k) (room - k) ≤ (s.advance k).unread.length := by
            rw [Source.advance, List.length_drop]
            omega
          -- What one call brings is missing from what is asked for and from the room alike.
          have hrest := ih (n - k) (by omega) (h.advance hk) hdropped
          rw [gather_of_call_cons hcall, hlen, hrest]
          by_cases hle : n ≤ room
          · have hsplit : k + (n - k) = n := by omega
            rw [if_pos hle, if_pos (Nat.sub_le_sub_right hle k), advance_advance, hsplit, ← htaken]
            simp only [Source.advance, ← List.take_add, hsplit]
          · have hsplit : k + (room - k) = room := by omega
            have hbehind : ¬n - k ≤ room - k := by omega
            rw [if_neg hle, if_neg hbehind, advance_advance, hsplit]

end Source

namespace Decoder

open Source

/-- From a device with the bytes `w` in front `x` reads `a`, and calls for all of `w` and nothing else. -/
def Takes {α : Type} (x : Decoder α) (a : α) (w rest : List UInt8) : Prop :=
  ∀ (s : Source) (room : Nat), s.Fragile room → s.unread = w ++ rest →
    x.run s = if w.length ≤ room then .ok a (s.advance w.length) else .error (.io .timedOut) (s.advance room)

def FrugalFor {α : Type} (x : Decoder α) (a : α) : Prop :=
  ∀ bs p t, x.run (plain bs p) = .ok a t →
    ∃ w rest, bs = w ++ rest ∧ t = plain rest (p + w.length) ∧ Takes x a w rest

def Frugal {α : Type} (x : Decoder α) : Prop := ∀ a, FrugalFor x a

variable {α β : Type} {x : Decoder α} {f : α → Decoder β}

theorem takes_pure (a : α) (rest : List UInt8) : Takes (pure a) a [] rest :=
  fun _ room _ _ => (if_pos (Nat.zero_le room)).symm

protected theorem Takes.bind {a : α} {b : β} {v w rest : List UInt8} (hx : Takes x a v (w ++ rest))
    (hf : Takes (f a) b w rest) : Takes (x >>= f) b (v ++ w) rest := by
  intro s room hs hunread
  rw [List.append_assoc] at hunread
  rw [EStateM.run_bind, hx s room hs hunread, List.length_append]
  by_cases hv : v.length ≤ room
  · have hrest : (s.advance v.length).unread = w ++ rest := by
      rw [Source.advance, hunread]
      exact List.drop_left
    -- The second decoder finds the room that the first has left.
    have hboth : w.length ≤ room - v.length ↔ v.length + w.length ≤ room := by omega
    rw [if_pos hv]
    dsimp only
    rw [hf _ _ (hs.advance hv) hrest, advance_advance, advance_advance, Nat.add_sub_cancel' hv]
    simp only [hboth]
  · have hboth : ¬v.length + w.length ≤ room := by omega
    rw [if_neg hv, if_neg hboth]

namespace Frugal

protected theorem pure (a : α) : Frugal (pure a) := by
  intro b bs p t h
  cases h
  exact ⟨[], bs, rfl, rfl, takes_pure a bs⟩

protected theorem bind (hx : Frugal x) (hf : ∀ a, Frugal (f a)) : Frugal (x >>= f) := by
  intro b bs p t h
  rw [EStateM.run_bind] at h
  cases hrun : x.run (plain bs p) with
  | error e u =>
      rw [hrun] at h
      cases h
  | ok a u =>
      rw [hrun] at h
      obtain ⟨v, rest, rfl, rfl, hv⟩ := hx a _ _ _ hrun
      obtain ⟨w, rest, rfl, rfl, hw⟩ := hf a b _ _ _ h
      refine ⟨v ++ w, rest, (List.append_assoc v w rest).symm, ?_, hv.bind hw⟩
      rw [List.length_append, Nat.add_assoc]

protected theorem throw (e : WireError) : Frugal (throw e : Decoder α) := by
  intro a bs p t h
  cases h

protected theorem ofExcept (r : Except WireError α) : Frugal (MonadExcept.ofExcept r : Decoder α) := by
  cases r with
  | ok a => exact Frugal.pure a
  | error e => exact Frugal.throw e

end Frugal

theorem takes_takeUpTo (w rest : List UInt8) : Takes (takeUpTo w.length) w w rest := by
  intro s room hs hunread
  have henough : min w.length room ≤ s.unread.length := by
    rw [hunread, List.length_append]
    omega
  have htaken : s.unread.take w.length = w := by rw [hunread, List.take_left]
  have hgather := hs.gather henough
  rw [htaken] at hgather
  by_cases hw : w.length ≤ room
  · rw [if_pos hw] at hgather ⊢
    simp only [takeUpTo, EStateM.run, hgather]
  · rw [if_neg hw] at hgather ⊢
    simp only [takeUpTo, EStateM.run, hgather]

theorem takes_takeUpTo_bind {n : Nat} {f : List UInt8 → Decoder β} {b : β} {w rest : List UInt8} (hn : w.length = n)
    (hf : f w = pure b) : Takes (takeUpTo n >>= f) b w rest := by
  subst hn
  have hpure : Takes (f w) b [] rest := hf ▸ takes_pure b rest
  have htakes := Takes.bind (takes_takeUpTo w ([] ++ rest)) hpure
  rwa [List.append_nil] at htakes

theorem frugal_exactly (n : Nat) : Frugal (exactly n) := by
  intro bytes bs p t h
  obtain ⟨w, rest, ⟨rfl, hn⟩, rfl, rfl⟩ := (Accepts.exactly n bs p bytes t).mp h
  refine ⟨w, rest, rfl, rfl, takes_takeUpTo_bind hn ?_⟩
  rw [if_neg (Nat.not_lt.mpr (Nat.le_of_eq hn.symm))]

theorem frugal_declared (part : Part) (n : Nat) : Frugal (declared part n) := by
  rintro ⟨_, hn⟩ bs p t h
  obtain ⟨w, rest, rfl, rfl, rfl⟩ := (Accepts.declared part n bs p ⟨_, hn⟩ t).mp h
  exact ⟨w, rest, rfl, rfl, takes_takeUpTo_bind hn (dif_pos hn)⟩

theorem inherited_frugal : Inherited Frugal := ⟨.pure, .bind, frugal_exactly, frugal_declared⟩

theorem frugal_framedRecord : Frugal framedRecord :=
  inherited_frugal.framedRecord (fun _ => .throw _) fun _ => .ofExcept _

theorem takes_byte? (b : UInt8) (rest : List UInt8) : Takes byte? (some b) [b] rest := by
  intro s room hs hunread
  by_cases hroom : room = 0
  · subst hroom
    rw [List.length_singleton, if_neg (Nat.not_succ_le_zero 0)]
    simp only [byte?, EStateM.run, hs.call_of_broken Nat.one_ne_zero]
    rfl
  · have hne : s.unread ≠ [] := by simp [hunread]
    obtain ⟨k, c, bytes, hpos, hone, -, -, htaken, hcall⟩ := hs.call_of_room hroom Nat.one_ne_zero hne
    obtain rfl : k = 1 := Nat.le_antisymm hone hpos
    rw [hunread] at htaken
    cases htaken
    rw [List.length_singleton, if_pos (Nat.succ_le_of_lt (Nat.pos_of_ne_zero hroom))]
    simp only [byte?, EStateM.run, hcall]
    rfl

theorem frugalFor_frame? (f : Frame) : FrugalFor frame? (some f) := by
  intro bs p t h
  cases bs with
  | nil => cases h
  | cons tag bs =>
      rw [frame?_plain_cons] at h
      obtain ⟨w, rest, rfl, rfl, hw⟩ := inherited_frugal.frameAfter tag _ _ _ _ h
      refine ⟨tag :: w, rest, rfl, ?_, Takes.bind (takes_byte? tag (w ++ rest)) hw⟩
      rw [List.length_cons, Nat.add_right_comm, Nat.add_assoc]

def taken {α : Type} (x : Decoder α) (d : List UInt8) : Nat := d.length - (x.left (.ofBytes d)).length

end Decoder

def Source.breaking (d : List UInt8) (chunk : Option Nat) (p : Nat) : Source := ⟨d, 0, chunk, [], some p⟩

namespace Decoder

open Source

variable {α : Type} {x : Decoder α} {a : α}

theorem outcome_eq_ok {s : Source} : x.outcome s = .ok a ↔ ∃ t, x.run s = .ok a t := by
  rw [outcome]
  cases x.run s <;> simp

theorem Takes.outcome_breaking {w rest : List UInt8} (h : Takes x a w rest) {chunk : Option Nat}
    (moves : chunk ≠ some 0) (p : Nat) :
    x.outcome (.breaking (w ++ rest) chunk p) = if w.length ≤ p then .ok a else .error (.io .timedOut) := by
  have hfragile : (Source.breaking (w ++ rest) chunk p).Fragile p :=
    ⟨moves, rfl, congrArg some (Nat.zero_add p).symm⟩
  rw [outcome, h _ p hfragile rfl]
  by_cases hp : w.length ≤ p
  · rw [if_pos hp, if_pos hp]
  · rw [if_neg hp, if_neg hp]

theorem taken_append {w rest : List UInt8} (h : x.run (.ofBytes (w ++ rest)) = .ok a (plain rest (0 + w.length))) :
    x.taken (w ++ rest) = w.length := by
  rw [taken, left, h, List.length_append]
  exact Nat.add_sub_cancel _ _

theorem FrugalFor.outcome_breaking (hx : FrugalFor x a) {d : List UInt8} (h : x.outcome (.ofBytes d) = .ok a)
    {chunk : Option Nat} (moves : chunk ≠ some 0) (p : Nat) :
    x.outcome (.breaking d chunk p) = if x.taken d ≤ p then .ok a else .error (.io .timedOut) := by
  obtain ⟨t, hrun⟩ := outcome_eq_ok.mp h
  obtain ⟨w, rest, rfl, rfl, htakes⟩ := hx _ _ _ hrun
  rw [taken_append hrun]
  exact htakes.outcome_breaking moves p

end Decoder

open Decoder

/-- Where a record, a framed record or a frame can be read, a device that breaks down behind the bytes it is read from
makes no difference, and one that breaks down earlier makes reading fail as the device does. -/
theorem decoders_never_read_ahead (d : List UInt8) (chunk : Option Nat) (moves : chunk ≠ some 0) (p : Nat) :
    (∀ r, record.outcome (.ofBytes d) = .ok r →
      record.outcome (.breaking d chunk p) = if record.taken d ≤ p then .ok r else .error (.io .timedOut)) ∧
    (∀ r, framedRecord.outcome (.ofBytes d) = .ok r →
      framedRecord.outcome (.breaking d chunk p) =
        if framedRecord.taken d ≤ p then .ok r else .error (.io .timedOut)) ∧
    ∀ f, frame?.outcome (.ofBytes d) = .ok (some f) →
      frame?.outcome (.breaking d chunk p) = if frame?.taken d ≤ p then .ok (some f) else .error (.io .timedOut) :=
  ⟨fun r h => (inherited_frugal.record r).outcome_breaking h moves p,
    fun r h => (frugal_framedRecord r).outcome_breaking h moves p,
    fun f h => (frugalFor_frame? f).outcome_breaking h moves p⟩

/-- Neither the empty content nor the empty payload is asked for, so the devices may break down right behind what says
that they are empty. -/
theorem empty_content_not_asked_for :
    let r : Record := ⟨[], [⟨9, [], by decide⟩]⟩
    record.outcome (.ofBytes (r.wire ++ [5])) = .ok r ∧ record.outcome (.breaking (r.wire ++ [5]) (some 3) 24) = .ok r ∧
      record.outcome (.breaking (r.wire ++ [5]) (some 3) 23) = .error (.io .timedOut) ∧
      frame?.outcome (.ofBytes [7, 0, 0, 0, 0, 5]) = .ok (some ⟨7, []⟩) ∧
      frame?.outcome (.breaking [7, 0, 0, 0, 0, 5] none 5) = .ok (some ⟨7, []⟩) ∧
      frame?.outcome (.breaking [7, 0, 0, 0, 0, 5] none 0) = .error (.io .timedOut) := by
  intro r
  have hrecord : record.run (.ofBytes (r.wire ++ [5])) = .ok r (.plain [5] (0 + r.wire.length)) :=
    (accepts_record _ 0 r _).mpr ⟨r.wire, [5], ⟨⟨by decide, by decide⟩, rfl⟩, rfl, rfl⟩
  have hframe : frame?.run (.ofBytes [7, 0, 0, 0, 0, 5]) = .ok (some ⟨7, []⟩) (.plain [5] 5) :=
    (frame?_plain_cons 7 [0, 0, 0, 0, 5] 0).trans
      ((accepts_frameAfter 7 _ _ _ _).mpr ⟨_, [5], ⟨[], rfl, by decide, rfl⟩, rfl, rfl⟩)
  have hread : record.outcome (.ofBytes (r.wire ++ [5])) = .ok r := outcome_eq_ok.mpr ⟨_, hrecord⟩
  have hfound : frame?.outcome (.ofBytes [7, 0, 0, 0, 0, 5]) = .ok (some ⟨7, []⟩) := outcome_eq_ok.mpr ⟨_, hframe⟩
  have hlength : record.taken (r.wire ++ [5]) = 24 := taken_append hrecord
  have htaken : frame?.taken [7, 0, 0, 0, 0, 5] = 5 := by
    rw [taken, left, hframe]
    rfl
  have hbehind := decoders_never_read_ahead (r.wire ++ [5]) (some 3) (by decide)
  have hwhole := decoders_never_read_ahead [7, 0, 0, 0, 0, 5] none (by decide)
  refine ⟨hread, ?_, ?_, hfound, ?_, ?_⟩
  · rw [(hbehind 24).1 r hread, hlength]
    rfl
  · rw [(hbehind 23).1 r hread, hlength]
    rfl
  · rw [(hwhole 5).2.2 _ hfound, htaken]
    rfl
  · rw [(hwhole 0).2.2 _ hfound, htaken]
    rfl

/-- A device that hands out nothing at all is at the end of its data. -/
theorem nothing_handed_out_ends_data :
    let d := Record.empty.wire
    record.outcome (.ofBytes d) = .ok Record.empty ∧ record.taken d = 8 ∧
      record.outcome (.breaking d (some 0) 8) = .error (.io .unexpectedEnd) := by
  intro d
  have hrun : record.run (.ofBytes (d ++ [])) = .ok Record.empty (.plain [] (0 + d.length)) :=
    (accepts_record _ 0 _ _).mpr ⟨d, [], ⟨⟨by decide, by decide⟩, rfl⟩, rfl, rfl⟩
  have htaken : record.taken (d ++ []) = d.length := taken_append hrun
  rw [List.append_nil] at hrun htaken
  have hgather : (Source.breaking d (some 0) 8).gather 4 = .ok [] (.breaking d (some 0) 8) :=
    Source.gather_of_call_nil rfl
  have hnothing : (takeUpTo 4).run (.breaking d (some 0) 8) = .ok [] (.breaking d (some 0) 8) := by
    simp only [takeUpTo, EStateM.run, hgather]
  have hword : (word 4).run (.breaking d (some 0) 8) = .error (.io .unexpectedEnd) (.breaking d (some 0) 8) := by
    rw [word, map_eq_pure_bind, EStateM.run_bind, exactly, EStateM.run_bind, hnothing]
    rfl
  have hfail : record.run (.breaking d (some 0) 8) = .error (.io .unexpectedEnd) (.breaking d (some 0) 8) := by
    rw [record, EStateM.run_bind, hword]
  exact ⟨outcome_eq_ok.mpr ⟨_, hrun⟩, htaken, by rw [outcome, hfail]⟩

end CallCapture
