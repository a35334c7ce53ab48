import CallCapture.Wire.Source

namespace CallCapture

def Source.plain (bytes : List UInt8) (position : Nat) : Source := ⟨bytes, position, none, [], none⟩

namespace Source

theorem call_plain (n : Nat) (bs : List UInt8) (p : Nat) :
    (plain bs p).call n = .ok (bs.take n) (plain (bs.drop n) (p + min n bs.length)) := by
  have hreach : (plain bs p).reach n = min n bs.length := by
    simp only [reach, plain, List.nil_append, Option.toList_none, List.filter_nil, List.map_nil, List.foldl_nil,
      Option.getD_none]
    omega
  simp only [call]
  split
  · rename_i hn
    subst n
    simp [plain]
  · rw [if_neg (by simp [plain]), if_neg (by simp [plain]), hreach]
    simp [plain, advance, List.take_eq_take_min, List.drop_eq_drop_min]

theorem gather_plain (n : Nat) (bs : List UInt8) (p : Nat) :
    (plain bs p).gather n = .ok (bs.take n) (plain (bs.drop n) (p + min n bs.length)) := by
  have hcall := call_plain n bs p
  cases ht : bs.take n with
  | nil =>
      rw [ht] at hcall
      exact gather_of_call_nil hcall
  | cons b taken =>
      rw [ht] at hcall
      have hlen : (b :: taken).length = min n bs.length := by rw [← ht, List.length_take]
      -- the second call finds that nothing is missing or nothing is left
      have hsecond := call_plain (n - (b :: taken).length) (bs.drop n) (p + min n bs.length)
      have hnone : n - (b :: taken).length = 0 ∨ (bs.drop n).length = 0 := by
        rw [hlen, List.length_drop]
        omega
      have hend : (plain (bs.drop n) (p + min n bs.length)).gather (n - (b :: taken).length) =
          .ok [] (plain (bs.drop n) (p + min n bs.length)) := by
        rcases hnone with hn | hd
        · rw [hn] at hsecond ⊢
          exact gather_of_call_nil (by simpa using hsecond)
        · have hd : bs.drop n = [] := List.length_eq_zero_iff.mp hd
          rw [hd] at hsecond ⊢
          exact gather_of_call_nil (by simpa using hsecond)
      rw [gather_of_call_cons hcall, hend]
      simp

end Source

namespace Decoder

open Source

theorem exactly_plain (n : Nat) (bs : List UInt8) (p : Nat) :
    (exactly n).run (plain bs p) =
      if n ≤ bs.length then .ok (bs.take n) (plain (bs.drop n) (p + n))
      else .error (.io .unexpectedEnd) (plain [] (p + bs.length)) := by
  have hrun : (exactly n).run (plain bs p) =
      if (bs.take n).length < n then .error (.io .unexpectedEnd) (plain (bs.drop n) (p + min n bs.length))
      else .ok (bs.take n) (plain (bs.drop n) (p + min n bs.length)) := by
    simp only [exactly, takeUpTo, EStateM.run, bind, EStateM.bind, gather_plain]
    split <;> rfl
  rw [hrun, List.length_take]
  by_cases hn : n ≤ bs.length
  · rw [if_pos hn, Nat.min_eq_left hn, if_neg (Nat.lt_irrefl n)]
  · have hlt : bs.length < n := by omega
    rw [if_neg hn, Nat.min_eq_right (Nat.le_of_lt hlt), if_pos hlt, List.drop_of_length_le (Nat.le_of_lt hlt)]

theorem declared_plain (part : Part) (n : Nat) (bs : List UInt8) (p : Nat) :
    (declared part n).run (plain bs p) =
      if h : n ≤ bs.length then .ok ⟨bs.take n, List.length_take_of_le h⟩ (plain (bs.drop n) (p + n))
      else .error (.malformed (.truncated part n bs.length)) (plain [] (p + bs.length)) := by
  have hrun : (declared part n).run (plain bs p) =
      if h : (bs.take n).length = n then .ok ⟨bs.take n, h⟩ (plain (bs.drop n) (p + min n bs.length))
      else .error (.malformed (.truncated part n (bs.take n).length)) (plain (bs.drop n) (p + min n bs.length)) := by
    simp only [declared, takeUpTo, EStateM.run, bind, EStateM.bind, gather_plain]
    split <;> rfl
  rw [hrun]
  by_cases hn : n ≤ bs.length
  · rw [dif_pos hn, dif_pos (List.length_take_of_le hn), Nat.min_eq_left hn]
  · have hlt : bs.length < n := by omega
    have hne : (bs.take n).length ≠ n := by rw [List.length_take]; omega
    rw [dif_neg hn, dif_neg hne, Nat.min_eq_right (Nat.le_of_lt hlt), List.drop_of_length_le (Nat.le_of_lt hlt),
      List.take_of_length_le (Nat.le_of_lt hlt)]

/-- On plain bytes `x` gives `a` exactly where they begin with bytes related to `a`, and stops behind these. -/
def Accepts {α : Type} (x : Decoder α) (P : α → List UInt8 → Prop) : Prop :=
  ∀ bs p a t, x.run (plain bs p) = .ok a t ↔ ∃ w rest, P a w ∧ bs = w ++ rest ∧ t = plain rest (p + w.length)

namespace Accepts

variable {α β : Type} {x y : Decoder α} {P Q : α → List UInt8 → Prop}

theorem congr (hx : Accepts x P) (h : ∀ a w, P a w ↔ Q a w) : Accepts x Q := by
  have he : P = Q := funext fun a => funext fun w => propext (h a w)
  exact he ▸ hx

protected theorem pure (a : α) : Accepts (pure a) fun b w => b = a ∧ w = [] := by
  intro bs p b t
  change EStateM.Result.ok a (plain bs p) = .ok b t ↔ _
  constructor
  · intro h
    cases h
    exact ⟨[], bs, ⟨rfl, rfl⟩, rfl, rfl⟩
  · rintro ⟨_, rest, ⟨rfl, rfl⟩, rfl, rfl⟩
    rfl

protected theorem throw (e : WireError) : Accepts (throw e : Decoder α) fun _ _ => False := by
  intro bs p a t
  constructor
  · intro h
    cases h
  · rintro ⟨_, _, h, -⟩
    exact h.elim

protected theorem ofExcept (r : Except WireError α) :
    Accepts (MonadExcept.ofExcept r : Decoder α) fun a w => r = .ok a ∧ w = [] := by
  cases r with
  | ok a => exact (Accepts.pure a).congr fun b w => and_congr_left' (by simp [eq_comm])
  | error e => exact (Accepts.throw e).congr fun a w => by simp

protected theorem bind {f : α → Decoder β} {R : α → β → List UInt8 → Prop} (hx : Accepts x P)
    (hf : ∀ a, Accepts (f a) (R a)) :
    Accepts (x >>= f) fun b w => ∃ a u v, P a u ∧ R a b v ∧ w = u ++ v := by
  intro bs p b t
  have hbind : (x >>= f).run (plain bs p) = .ok b t ↔
      ∃ a s, x.run (plain bs p) = .ok a s ∧ (f a).run s = .ok b t := by
    simp only [EStateM.run, bind, EStateM.bind]
    cases x (plain bs p) with
    | ok a s => simp [and_assoc]
    | error e s => simp
  rw [hbind]
  constructor
  · rintro ⟨a, s, hxs, hfs⟩
    obtain ⟨u, rest, hP, rfl, rfl⟩ := (hx bs p a s).mp hxs
    obtain ⟨v, rest', hR, rfl, rfl⟩ := (hf a rest _ b t).mp hfs
    refine ⟨u ++ v, rest', ⟨a, u, v, hP, hR, rfl⟩, (List.append_assoc u v rest').symm, ?_⟩
    rw [List.length_append, Nat.add_assoc]
  · rintro ⟨_, rest, ⟨a, u, v, hP, hR, rfl⟩, rfl, rfl⟩
    refine ⟨a, plain (v ++ rest) (p + u.length), ?_, ?_⟩
    · exact (hx _ p a _).mpr ⟨u, v ++ rest, hP, List.append_assoc u v rest, rfl⟩
    · refine (hf a _ _ b _).mpr ⟨v, rest, hR, rfl, ?_⟩
      rw [List.length_append, Nat.add_assoc]

protected theorem map {f : α → β} (hx : Accepts x P) :
    Accepts (f <$> x) fun b w => ∃ a, P a w ∧ b = f a := by
  rw [map_eq_pure_bind]
  refine (Accepts.bind hx fun a => Accepts.pure (f a)).congr fun b w => ?_
  constructor
  · rintro ⟨a, u, _, hP, ⟨rfl, rfl⟩, rfl⟩
    exact ⟨a, by simpa using hP, rfl⟩
  · rintro ⟨a, hP, rfl⟩
    exact ⟨a, w, [], hP, ⟨rfl, rfl⟩, by simp⟩

protected theorem ite {c : Prop} [Decidable c] (hx : Accepts x P) (hy : Accepts y Q) :
    Accepts (if c then x else y) fun a w => if c then P a w else Q a w := by
  split
  · exact hx
  · exact hy

theorem exactly (n : Nat) : Accepts (exactly n) fun a w => w = a ∧ w.length = n := by
  intro bs p a t
  rw [exactly_plain]
  constructor
  · intro h
    split at h
    · rename_i hn
      cases h
      refine ⟨bs.take n, bs.drop n, ⟨rfl, List.length_take_of_le hn⟩, (List.take_append_drop n bs).symm, ?_⟩
      rw [List.length_take_of_le hn]
    · cases h
  · rintro ⟨_, rest, ⟨rfl, rfl⟩, rfl, rfl⟩
    simp

theorem declared (part : Part) (n : Nat) : Accepts (declared part n) fun a w => w = a.1 := by
  intro bs p a t
  rw [declared_plain]
  constructor
  · intro h
    split at h
    · rename_i hn
      cases h
      refine ⟨bs.take n, bs.drop n, rfl, (List.take_append_drop n bs).symm, ?_⟩
      rw [List.length_take_of_le hn]
    · cases h
  · obtain ⟨a, ha⟩ := a
    rintro ⟨_, rest, rfl, rfl, rfl⟩
    subst n
    simp

end Accepts

end Decoder

end CallCapture
