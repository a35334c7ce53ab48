import CallCapture.Text.Lossy

namespace CallCapture.Text

theorem firstChar?_eq_some {bytes : List UInt8} {c : Char} :
    firstChar? bytes = some c ↔ String.utf8EncodeChar c <+: bytes := by
  constructor
  · intro h
    obtain ⟨rest, hrest⟩ := ByteArray.exists_of_utf8DecodeChar?_eq_some h
    have hlist := congrArg (fun b : ByteArray => b.data.toList) hrest
    simp only [ByteArray.data_append, Array.toList_append, List.toList_data_toByteArray] at hlist
    exact (List.prefix_iff_exists_append_eq.mpr ⟨_, hlist.symm⟩).trans (List.take_prefix 4 bytes)
  · rintro ⟨rest, rfl⟩
    have hlength : (String.utf8EncodeChar c).length ≤ 4 := by
      rw [String.length_utf8EncodeChar]
      exact c.utf8Size_le_four
    rw [firstChar?, List.take_append, List.take_of_length_le hlength, List.toByteArray_append]
    exact ByteArray.utf8DecodeChar?_utf8EncodeChar_append

theorem lossyChars_encodeChar_append (c : Char) (rest : List UInt8) :
    lossyChars (String.utf8EncodeChar c ++ rest) = c :: lossyChars rest := by
  have hfirst : firstChar? (String.utf8EncodeChar c ++ rest) = some c := firstChar?_eq_some.mpr (List.prefix_append _ _)
  have hlength := String.length_utf8EncodeChar c
  cases hencode : String.utf8EncodeChar c with
  | nil => exact absurd hencode String.utf8EncodeChar_ne_nil
  | cons b tail =>
      rw [hencode] at hfirst hlength
      rw [List.cons_append] at hfirst ⊢
      rw [lossyChars, hfirst]
      dsimp only
      rw [List.drop_left' (by rw [← hlength]; rfl)]

theorem lossyChars_cons_of_none {b : UInt8} {rest : List UInt8} (h : firstChar? (b :: rest) = none) :
    lossyChars (b :: rest) = replacement :: lossyChars (rest.drop (brokenLength (b :: rest) - 1)) := by
  rw [lossyChars, h]

theorem lossyChars_encode_append (cs : List Char) (rest : List UInt8) :
    lossyChars (cs.flatMap String.utf8EncodeChar ++ rest) = cs ++ lossyChars rest := by
  induction cs with
  | nil => rfl
  | cons c cs ih => rw [List.flatMap_cons, List.append_assoc, lossyChars_encodeChar_append, ih, List.cons_append]

theorem toUTF8_lossy {bytes : List UInt8} (h : bytes.toByteArray.IsValidUTF8) :
    (lossy bytes).toUTF8 = bytes.toByteArray := by
  obtain ⟨cs, hcs⟩ := h
  obtain rfl : bytes = cs.flatMap String.utf8EncodeChar := List.toByteArray_inj.mp hcs
  have hchars := lossyChars_encode_append cs []
  rw [List.append_nil, lossyChars, List.append_nil] at hchars
  rw [lossy, hchars]
  exact String.toByteArray_ofList

section zero

theorem encodeChar_of_zero_mem {c : Char} (h : 0 ∈ String.utf8EncodeChar c) : String.utf8EncodeChar c = [0] := by
  rcases c.utf8Size_eq with hsize | hsize | hsize | hsize
  · rw [String.utf8EncodeChar_eq_singleton hsize] at h ⊢
    rw [List.mem_singleton.mp h]
  · rw [String.utf8EncodeChar_eq_cons_cons hsize] at h
    simp [eq_comm (a := (0 : UInt8))] at h
  · rw [String.utf8EncodeChar_eq_cons_cons_cons hsize] at h
    simp [eq_comm (a := (0 : UInt8))] at h
  · rw [String.utf8EncodeChar_eq_cons_cons_cons_cons hsize] at h
    simp [eq_comm (a := (0 : UInt8))] at h

variable {b : UInt8} {bytes : List UInt8}

theorem firstChar?_append_zero (h : firstChar? (b :: bytes) = none) (rest : List UInt8) :
    firstChar? (b :: bytes ++ 0 :: rest) = none := by
  rw [Option.eq_none_iff_forall_ne_some]
  intro c hc
  have hprefix := firstChar?_eq_some.mp hc
  rcases Nat.lt_or_ge (b :: bytes).length (String.utf8EncodeChar c).length with hlong | hshort
  · -- such a character would have the zero byte in it
    have hwhole : (b :: bytes) ++ [0] <+: b :: bytes ++ 0 :: rest := by
      rw [List.prefix_append_right_inj]
      exact List.prefix_append [0] rest
    have hin : (b :: bytes) ++ [0] <+: String.utf8EncodeChar c := by
      refine List.prefix_of_prefix_length_le hwhole hprefix ?_
      rw [List.length_append]
      exact hlong
    rw [encodeChar_of_zero_mem (hin.subset (by simp))] at hlong
    simp at hlong
  · have hfirst := firstChar?_eq_some.mpr (List.prefix_of_prefix_length_le hprefix (List.prefix_append _ _) hshort)
    rw [h] at hfirst
    cases hfirst

theorem mayFollow_zero (lead : UInt8) : mayFollow lead 0 = false := by
  simp [mayFollow, isContinuation]

theorem brokenLength_append_zero (b : UInt8) (bytes rest : List UInt8) :
    brokenLength (b :: bytes ++ 0 :: rest) = brokenLength (b :: bytes) := by
  rcases bytes with _ | ⟨second, _ | ⟨third, bytes⟩⟩
  · simp [brokenLength, mayFollow_zero]
  · simp [brokenLength, isContinuation]
  · rfl

theorem brokenLength_le (b : UInt8) (bytes : List UInt8) : brokenLength (b :: bytes) ≤ bytes.length + 1 := by
  rcases bytes with _ | ⟨second, _ | ⟨third, bytes⟩⟩
  · exact Nat.le_refl 1
  · rw [brokenLength]
    split <;> simp
  · rw [brokenLength]
    split
    · split <;> simp
    · simp

theorem lossyChars_append_zero (bytes rest : List UInt8) :
    lossyChars (bytes ++ 0 :: rest) = lossyChars bytes ++ '\x00' :: lossyChars rest := by
  have hzero : ∀ rest : List UInt8, lossyChars (0 :: rest) = '\x00' :: lossyChars rest :=
    lossyChars_encodeChar_append '\x00'
  fun_induction lossyChars bytes with
  | case1 => exact hzero rest
  | case2 b bytes c hfirst ih =>
      obtain ⟨tail, htail⟩ := firstChar?_eq_some.mp hfirst
      have hdrop : bytes.drop (c.utf8Size - 1) = tail := by
        have hpos := c.utf8Size_pos
        have hlength := String.length_utf8EncodeChar c
        rw [← List.drop_succ_cons (a := b), Nat.sub_add_cancel hpos, ← htail, List.drop_left' hlength]
      rw [hdrop] at ih ⊢
      rw [← htail, List.append_assoc, lossyChars_encodeChar_append, ih, List.cons_append]
  | case3 b bytes hfirst ih =>
      have hle := brokenLength_le b bytes
      have hbroken := brokenLength_append_zero b bytes rest
      have hnone := firstChar?_append_zero hfirst rest
      rw [List.cons_append] at hbroken hnone ⊢
      rw [lossyChars_cons_of_none hnone, hbroken, List.drop_append_of_le_length (by omega), ih, List.cons_append]

theorem lossy_append_zero (bytes rest : List UInt8) :
    lossy (bytes ++ 0 :: rest) = lossy bytes ++ String.singleton '\x00' ++ lossy rest := by
  rw [lossy, lossyChars_append_zero, String.ofList_append, String.ofList_cons, String.append_assoc]
  rfl

end zero

end CallCapture.Text
