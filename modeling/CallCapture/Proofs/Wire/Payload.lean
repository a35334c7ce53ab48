import CallCapture.Wire.Frame
import Mathlib.Algebra.Group.Nat.Defs
import Mathlib.Data.List.Forall2

namespace CallCapture

def Observation.wire (o : Observation) : List UInt8 :=
  Word.encode 8 o.address.toNat ++ Word.encode 8 o.length ++ o.bytes

def Observation.wireList (os : List Observation) : List UInt8 :=
  Word.encode 4 os.length ++ os.flatMap Observation.wire

namespace Record

def Fits (r : Record) : Prop := r.reads.length < 2 ^ 32 ∧ r.writes.length < 2 ^ 32

def wire (r : Record) : List UInt8 := Observation.wireList r.reads ++ Observation.wireList r.writes

end Record

def Frame.wire (f : Frame) : List UInt8 := [f.tag] ++ Word.encode 4 f.payload.length ++ f.payload

namespace Encoder

theorem put_bind_put (a b : List UInt8) : (do put a; put b) = put (a ++ b) := by
  funext ⟨w, limit⟩
  simp only [bind, EStateM.bind]
  cases limit with
  | none => simp [put, Sink.fits, Sink.fill]
  | some n =>
      by_cases ha : w.length + a.length ≤ n
      · have hfill : (w ++ a).take n = w ++ a := List.take_of_length_le (by simpa using ha)
        simp [put, Sink.fits, Sink.fill, ha, hfill, Nat.add_assoc]
      · have hb : ¬w.length + (a.length + b.length) ≤ n := by omega
        have hlong : n ≤ (w ++ a).length := by simp only [List.length_append]; omega
        have hfill : (w ++ a ++ b).take n = (w ++ a).take n := List.take_append_of_le_length hlong
        simp [put, Sink.fits, Sink.fill, ha, hb, ← List.append_assoc, hfill]

theorem bytes?_put (bs : List UInt8) : (put bs).bytes? = .ok bs := rfl

theorem length_of_lt {n : Nat} (h : n < 2 ^ 32) (part : Part) : length part n = put (Word.encode 4 n) := if_pos h

theorem length_of_le {n : Nat} (h : 2 ^ 32 ≤ n) (part : Part) : length part n = fail (.malformed (.tooLong part n)) :=
  if_neg (Nat.not_lt.mpr h)

theorem observation_eq_put (o : Observation) : observation o = put o.wire := by
  simp only [observation, word, put_bind_put, Observation.wire, List.append_assoc]

theorem put_bind_forM {α β : Type} {f : α → Encoder Unit} {w : β → List UInt8} {xs : List α} {ys : List β}
    (h : List.Forall₂ (fun x y => f x = put (w y)) xs ys) (a : List UInt8) (rest : List α) :
    (do put a; (xs ++ rest).forM f) = (do put (a ++ ys.flatMap w); rest.forM f) := by
  -- each item's bytes join the write in front, which the next item meets in place of `a`
  induction h generalizing a with
  | nil => simp
  | @cons x y xs ys hput _ ih =>
      have hcons : (x :: xs ++ rest).forM f = (do put (w y); (xs ++ rest).forM f) := by
        rw [← hput]
        rfl
      rw [hcons, ← bind_assoc, put_bind_put, ih, List.flatMap_cons, List.append_assoc]

theorem observations_of_lt {os : List Observation} (h : os.length < 2 ^ 32) :
    observations os = put (Observation.wireList os) := by
  have hputs : List.Forall₂ (fun o p => observation o = put p.wire) os os :=
    List.forall₂_same.mpr fun o _ => observation_eq_put o
  have hforM := put_bind_forM hputs (Word.encode 4 os.length) []
  rw [List.append_nil] at hforM
  rw [observations, length_of_lt h]
  exact hforM.trans (bind_pure_unit)

theorem observations_of_le {os : List Observation} (h : 2 ^ 32 ≤ os.length) :
    observations os = fail (.malformed (.tooLong .list os.length)) := by
  rw [observations, length_of_le h]
  rfl

theorem record_eq_put {r : Record} (h : r.Fits) : record r = put r.wire := by
  rw [record, observations_of_lt h.1, observations_of_lt h.2]
  exact put_bind_put _ _

theorem bytes?_record (r : Record) (bs : List UInt8) : (record r).bytes? = .ok bs ↔ r.Fits ∧ bs = r.wire := by
  by_cases hr : r.reads.length < 2 ^ 32
  · by_cases hw : r.writes.length < 2 ^ 32
    · rw [record_eq_put ⟨hr, hw⟩, bytes?_put]
      exact ⟨fun h => ⟨⟨hr, hw⟩, (Except.ok.inj h).symm⟩, fun h => congrArg Except.ok h.2.symm⟩
    · rw [record, observations_of_lt hr, observations_of_le (Nat.le_of_not_lt hw)]
      exact ⟨fun h => (nomatch h), fun h => absurd h.1.2 hw⟩
  · rw [record, observations_of_le (Nat.le_of_not_lt hr)]
    exact ⟨fun h => (nomatch h), fun h => absurd h.1.1 hr⟩

theorem frame_eq_put {x : Extra} {payload : List UInt8} (h : x.encode.bytes? = .ok payload)
    (hl : payload.length < 2 ^ 32) : x.frame = put (Frame.wire ⟨x.tag, payload⟩) := by
  have hf : x.frame = (do put [x.tag]; length .payload payload.length; put payload) := by
    rw [Extra.frame, h]
    rfl
  rw [hf, length_of_lt hl, put_bind_put, put_bind_put]
  rfl

theorem frame_eq_fail {x : Extra} {e : WireError} (h : x.encode.bytes? = .error e) : x.frame = fail e := by
  rw [Extra.frame, h]
  rfl

theorem frame_eq_put_fail {x : Extra} {payload : List UInt8} (h : x.encode.bytes? = .ok payload)
    (hl : 2 ^ 32 ≤ payload.length) :
    x.frame = (do put [x.tag]; fail (.malformed (.tooLong .payload payload.length))) := by
  rw [Extra.frame, h]
  change (do put [x.tag]; length .payload payload.length; put payload) = _
  rw [length_of_le hl]
  rfl

theorem bytes?_frame (x : Extra) (bs : List UInt8) :
    x.frame.bytes? = .ok bs ↔
      ∃ payload, x.encode.bytes? = .ok payload ∧ payload.length < 2 ^ 32 ∧ bs = Frame.wire ⟨x.tag, payload⟩ := by
  cases h : x.encode.bytes? with
  | error e =>
      rw [frame_eq_fail h]
      exact ⟨fun h => (nomatch h), fun ⟨_, h, _⟩ => (nomatch h)⟩
  | ok payload =>
      by_cases hl : payload.length < 2 ^ 32
      · rw [frame_eq_put h hl, bytes?_put]
        constructor
        · intro he
          exact ⟨payload, rfl, hl, (Except.ok.inj he).symm⟩
        · rintro ⟨_, hp, -, rfl⟩
          rw [Except.ok.inj hp]
      · rw [frame_eq_put_fail h (Nat.le_of_not_lt hl)]
        constructor
        · intro he
          cases he
        · rintro ⟨_, hp, hlp, -⟩
          exact absurd (Except.ok.inj hp ▸ hlp) hl

end Encoder

end CallCapture
