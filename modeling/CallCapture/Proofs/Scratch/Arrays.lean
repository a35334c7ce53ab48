import CallCapture.Proofs.Scratch.Blocks

namespace CallCapture

namespace TypedArray

def set (x : TypedArray) (index : Nat) (value : Literal) : TypedArray :=
  ⟨x.elem, x.values.set index (x.elem.ofLiteral value)⟩

def literals (x : TypedArray) : List Literal := x.values.map x.elem.literal

end TypedArray

def ScratchAction.granted (a : ScratchAction) : ScratchAnswer → List TypedArray
  | .allocated _ => a.array?.toList
  | _ => []

theorem ScratchAction.granted_of_none {a : ScratchAction} (ha : a.array? = none) (answer : ScratchAnswer) :
    a.granted answer = [] := by
  cases answer with
  | allocated h => rw [granted, ha]; rfl
  | _ => rfl

/-- A plain store after an action. All that it takes from the answer is whether an array was granted. -/
def storeAfter (l : List TypedArray) : ScratchAction × ScratchAnswer → List TypedArray
  | (.reset, _) => []
  | (.set k index value, _) => l.modify k fun x => x.set index value
  | (a, answer) => l ++ a.granted answer

theorem storeAfter_of_array? {a : ScratchAction} {x : TypedArray} (ha : a.array? = some x) (l : List TypedArray)
    (answer : ScratchAnswer) : storeAfter l (a, answer) = l ++ a.granted answer := by
  cases a with
  | set | reset => cases ha
  | _ => rfl

def ScratchAnswer.handles : ScratchAnswer → List Handle
  | .allocated h => [h]
  | _ => []

def handlesAfter (l : List Handle) : ScratchAction × ScratchAnswer → List Handle
  | (.reset, _) => []
  | (_, answer) => l ++ answer.handles

def storeAnswer (l : List TypedArray) : ScratchAction → Option ScratchAnswer
  | .contents k =>
    match l[k]? with
    | none => some .done
    | some x => some (.elements x.literals)
  | .set k index value =>
    match l[k]? with
    | none => some .done
    | some x =>
      if index < x.values.length then some (.elements (x.set index value).literals)
      else some (.fault (.scratchIndex x.values.length index))
  | _ => none

theorem Block.Apart.symm {b d : Block} (h : b.Apart d) : d.Apart b := Or.symm h

def Handle.block (h : Handle) : Block := ⟨h.address, h.count * h.elem.size, h.elem.align⟩

theorem Hosts.sublist {chunks : List Chunk} {blocks some : List Block} (h : Hosts chunks blocks)
    (hs : some.Sublist blocks) : Hosts chunks some where
  cursor_le := h.cursor_le
  chunks_apart := h.chunks_apart
  aligned b hb := h.aligned b (hs.subset hb)
  inside b hb := h.inside b (hs.subset hb)
  apart := h.apart.sublist hs

namespace Scratch

def arrayOf (s : Scratch) (h : Handle) : TypedArray := ⟨h.elem, s.contents h⟩

def arrays (s : Scratch) : List TypedArray := s.handles.map s.arrayOf

/-- No live handle shares memory with another, nor with what is still to be handed out. -/
def Intact (s : Scratch) : Prop := Hosts s.arena.chunks (s.handles.map Handle.block)

section contents

variable {s t : Scratch} {h : Handle}

@[simp] theorem length_contents (s : Scratch) (h : Handle) : (s.contents h).length = h.count := by
  rw [contents, List.length_map, List.length_range]

theorem getElem_contents (s : Scratch) (h : Handle) {i : Nat} (hi : i < (s.contents h).length) :
    (s.contents h)[i] = s.get h i := by
  simp only [contents, List.getElem_map, List.getElem_range]

theorem element_le (h : Handle) {i : Nat} (hi : i < h.count) :
    i * h.elem.size + h.elem.size ≤ h.count * h.elem.size := by
  rw [← Nat.succ_mul]
  exact Nat.mul_le_mul_right _ hi

theorem contents_of_frame {start : Nat} {bytes : List UInt8} (hstores : s.storage.Stores start bytes t.storage)
    (apart : bytes.length ≠ 0 → h.count * h.elem.size ≠ 0 →
      start + bytes.length ≤ h.address ∨ h.address + h.count * h.elem.size ≤ start) :
    t.contents h = s.contents h := by
  refine List.map_congr_left fun i hi => ?_
  have hle := element_le h (List.mem_range.mp hi)
  rw [get, get]
  congr 1
  exact hstores.read_eq (by omega)

theorem contents_of_stores {t : ElementType} {values : List t.Value} {address : Nat}
    (h : s.storage.read address (encodeAll t values).length = encodeAll t values) :
    s.contents ⟨t, address, values.length⟩ = values := by
  refine List.ext_getElem (s.length_contents _) fun i _ hi => ?_
  have hle : i * t.size + t.size ≤ (encodeAll t values).length := by
    rw [length_encodeAll]
    exact element_le ⟨t, address, values.length⟩ hi
  have hread : s.storage.read (address + i * t.size) t.size = t.encode values[i] := by
    rw [← Memory.take_drop_read hle, h, encodeAll, ElementType.drop_flatMap _ t.length_encode,
      List.drop_eq_getElem_cons hi, List.flatMap_cons, List.take_left' (t.length_encode _)]
  rw [getElem_contents, get, hread, t.decode_encode]

theorem contents_stored (s : Scratch) (h : Handle) (index : Nat) (value : h.elem.Value) :
    (s.stored h index value).contents h = (s.contents h).set index value := by
  have hstores := s.storage.stores_write (h.address + index * h.elem.size) (h.elem.encode value)
  refine List.ext_getElem (by simp) fun j hj hj' => ?_
  rw [length_contents] at hj
  rw [getElem_contents, List.getElem_set]
  by_cases hij : index = j
  · subst hij
    have hread := hstores.stored
    rw [h.elem.length_encode] at hread
    rw [if_pos rfl, get, stored, hread, h.elem.decode_encode]
  · rw [if_neg hij, getElem_contents, get, get]
    congr 1
    refine hstores.read_eq fun _ _ => ?_
    rw [h.elem.length_encode]
    -- the smaller index ends where the next element begins
    rcases Nat.lt_or_gt_of_ne hij with hlt | hlt
    · have hnext := Nat.mul_le_mul_right h.elem.size hlt
      rw [Nat.succ_mul] at hnext
      omega
    · have hnext := Nat.mul_le_mul_right h.elem.size hlt
      rw [Nat.succ_mul] at hnext
      omega

end contents

section intact

variable {s t : Scratch}

theorem Intact.apart_new {chunks : List Chunk} {handles : List Handle} {new : Handle}
    (hs : Hosts chunks ((handles ++ [new]).map Handle.block)) {h : Handle} (hh : h ∈ handles)
    (hsize : h.count * h.elem.size ≠ 0) (hnew : new.count * new.elem.size ≠ 0) : h.block.Apart new.block := by
  have hpair := hs.apart
  rw [List.map_append] at hpair
  exact (List.pairwise_append.mp hpair).2.2 _ (List.mem_map_of_mem hh) _ List.mem_cons_self hsize hnew

theorem Intact.block_apart (hs : s.Intact) {i j : Nat} (hij : i ≠ j) (hi : i < s.handles.length)
    (hj : j < s.handles.length) (hisize : s.handles[i].block.size ≠ 0) (hjsize : s.handles[j].block.size ≠ 0) :
    s.handles[i].block.Apart s.handles[j].block := by
  have hpair := List.pairwise_iff_getElem.mp (List.pairwise_map.mp (Hosts.apart hs))
  rcases Nat.lt_or_gt_of_ne hij with hlt | hlt
  · exact hpair i j hi hj hlt hisize hjsize
  · exact (hpair j i hj hi hlt hjsize hisize).symm

theorem arrays_of_stores {x : TypedArray} {address : Nat}
    (hstores : s.storage.Stores address (encodeAll x.elem x.values) t.storage)
    (hhandles : t.handles = s.handles ++ [⟨x.elem, address, x.values.length⟩]) (ht : t.Intact) :
    t.arrays = s.arrays ++ [x] := by
  have hnew : t.arrayOf ⟨x.elem, address, x.values.length⟩ = x :=
    congrArg (TypedArray.mk x.elem) (contents_of_stores hstores.stored)
  have hold : ∀ h ∈ s.handles, t.arrayOf h = s.arrayOf h := by
    intro h hh
    refine congrArg (TypedArray.mk h.elem) (contents_of_frame hstores fun hbytes hsize => ?_)
    rw [Intact, hhandles] at ht
    rw [length_encodeAll] at hbytes ⊢
    exact (Intact.apart_new ht hh hsize hbytes).symm
  rw [arrays, hhandles, List.map_append, List.map_congr_left hold, List.map_singleton, hnew, arrays]

theorem arrays_of_array? {a : ScratchAction} {x : TypedArray} (ha : a.array? = some x)
    (ht : (s.step a).2.Intact) : (s.step a).2.arrays = storeAfter s.arrays (a, (s.step a).1) := by
  rw [storeAfter_of_array? ha]
  obtain ⟨guarded, result, t, halloc, hstep⟩ := s.step_allocates ha
  rw [hstep] at ht ⊢
  cases halloc with
  | allocated layout reserved stored =>
      have harrays := arrays_of_stores stored rfl ht
      rw [answerAlloc, ScratchAction.granted, ha]
      exact harrays
  | refused => cases guarded <;> exact (List.append_nil _).symm
  | overflows => cases guarded <;> exact (List.append_nil _).symm

theorem contents_stored_of_ne (hs : s.Intact) {j k : Nat} (hjk : j ≠ k) (hj : j < s.handles.length)
    (hk : k < s.handles.length) {index : Nat} (hi : index < s.handles[k].count) (value : s.handles[k].elem.Value) :
    (s.stored s.handles[k] index value).contents s.handles[j] = s.contents s.handles[j] := by
  refine contents_of_frame (s.storage.stores_write _ _) fun hbytes hsize => ?_
  -- the written element has bytes, so its block has
  have hle := element_le _ hi
  rw [ElementType.length_encode] at hbytes ⊢
  have hksize : s.handles[k].count * s.handles[k].elem.size ≠ 0 := by omega
  have hapart := hs.block_apart hjk hj hk hsize hksize
  simp only [Block.Apart, Handle.block] at hapart
  omega

theorem arrays_stored (hs : s.Intact) {k : Nat} {h : Handle} (hk : s.handles[k]? = some h) {index : Nat}
    (hi : index < h.count) (value : Literal) :
    (s.stored h index (h.elem.ofLiteral value)).arrays = s.arrays.modify k fun x => x.set index value := by
  obtain ⟨hlt, rfl⟩ := List.getElem?_eq_some_iff.mp hk
  refine List.ext_getElem (by simp [arrays, stored]) fun j hj _ => ?_
  have hj : j < s.handles.length := by simpa [arrays, stored] using hj
  rw [List.getElem_modify]
  simp only [arrays, List.getElem_map]
  by_cases hjk : k = j
  · subst hjk
    rw [if_pos rfl]
    exact congrArg (TypedArray.mk _) (contents_stored s s.handles[k] index _)
  · rw [if_neg hjk]
    exact congrArg (TypedArray.mk _) (contents_stored_of_ne hs (Ne.symm hjk) hj hlt hi _)

theorem arrays_modify_of_le {k index : Nat} (hk : ∀ h, s.handles[k]? = some h → h.count ≤ index) (value : Literal) :
    s.arrays.modify k (fun x => x.set index value) = s.arrays := by
  refine List.ext_getElem? fun j => ?_
  rw [List.getElem?_modify, arrays, List.getElem?_map]
  cases hj : s.handles[j]? with
  | none => rfl
  | some h =>
      by_cases hkj : k = j
      · subst hkj
        have hle : (s.arrayOf h).values.length ≤ index := by
          rw [arrayOf, length_contents]
          exact hk h hj
        simp only [Option.map_some, Option.map_eq_map, if_true, TypedArray.set, List.set_eq_of_length_le hle]
      · simp only [Option.map_some, Option.map_eq_map, if_neg hkj]

theorem arrays_step_set (hs : s.Intact) (k index : Nat) (value : Literal) :
    (s.step (.set k index value)).2.arrays = s.arrays.modify k fun x => x.set index value := by
  cases hk : s.handles[k]? with
  | none =>
      rw [step_set_of_none hk, arrays_modify_of_le (fun h hh => by rw [hk] at hh; cases hh)]
  | some h =>
      by_cases hi : index < h.count
      · rw [step_set_of_lt hk hi]
        exact arrays_stored hs hk hi value
      · have hle := Nat.not_lt.mp hi
        rw [step_set_of_le hk hle, arrays_modify_of_le (fun g hg => by rw [hk] at hg; cases hg; exact hle)]

theorem handles_step_set (s : Scratch) (k index : Nat) (value : Literal) :
    (s.step (.set k index value)).2.handles = s.handles ∧ (s.step (.set k index value)).1.handles = [] := by
  cases hk : s.handles[k]? with
  | none =>
      rw [step_set_of_none hk]
      exact ⟨rfl, rfl⟩
  | some h =>
      by_cases hi : index < h.count
      · rw [step_set_of_lt hk hi]
        exact ⟨rfl, rfl⟩
      · rw [step_set_of_le hk (Nat.not_lt.mp hi)]
        exact ⟨rfl, rfl⟩

theorem handles_of_array? (s : Scratch) {a : ScratchAction} {x : TypedArray} (ha : a.array? = some x) :
    (s.step a).2.handles = s.handles ++ (s.step a).1.handles := by
  obtain ⟨guarded, result, t, halloc, hstep⟩ := s.step_allocates ha
  rw [hstep]
  cases halloc with
  | allocated => rfl
  | refused | overflows => cases guarded <;> exact (List.append_nil _).symm

theorem handles_step (s : Scratch) (a : ScratchAction) :
    (s.step a).2.handles = handlesAfter s.handles (a, (s.step a).1) := by
  cases a with
  | alloc guarded t value => exact handles_of_array? s rfl
  | allocZeroed guarded t count => exact handles_of_array? s rfl
  | allocCopy t values => exact handles_of_array? s rfl
  | reserve l =>
      simp only [step, handlesAfter]
      rcases s.arena.reserve l with ⟨e | address, b⟩ <;> exact (List.append_nil _).symm
  | set k index value =>
      obtain ⟨hstate, hanswer⟩ := s.handles_step_set k index value
      simp only [handlesAfter, hstate, hanswer, List.append_nil]
  | contents k =>
      cases hk : s.handles[k]? with
      | none =>
          rw [step_contents_of_none hk]
          exact (List.append_nil _).symm
      | some h =>
          rw [step_contents hk]
          exact (List.append_nil _).symm
  | allocUnit | config => exact (List.append_nil _).symm
  | reset => rfl

theorem blocks_of_array? (s : Scratch) {a : ScratchAction} {x : TypedArray} (ha : a.array? = some x) :
    ((s.step a).2.handles.map Handle.block).Sublist (s.handles.map Handle.block ++ a.blocks (s.step a).1) := by
  obtain ⟨guarded, result, t, halloc, hstep⟩ := s.step_allocates ha
  rw [hstep]
  cases halloc with
  | allocated layout reserved stored =>
      rw [answerAlloc, ScratchAction.blocks, ha, List.map_append]
      exact List.Sublist.refl _
  | refused | overflows => exact List.sublist_append_left _ _

theorem blocks_step (s : Scratch) (a : ScratchAction) :
    ((s.step a).2.handles.map Handle.block).Sublist
      (givenAfter (s.handles.map Handle.block) (a, (s.step a).1)) := by
  cases a with
  | alloc guarded t value => exact blocks_of_array? s rfl
  | allocZeroed guarded t count => exact blocks_of_array? s rfl
  | allocCopy t values => exact blocks_of_array? s rfl
  | reserve l =>
      rw [state_step_reserve]
      exact List.sublist_append_left _ _
  | set k index value =>
      rw [(s.handles_step_set k index value).1]
      exact List.sublist_append_left _ _
  | contents k =>
      rw [state_step_contents]
      exact List.sublist_append_left _ _
  | allocUnit | config => exact List.sublist_append_left _ _
  | reset => exact List.Sublist.refl []

theorem Intact.step (hs : s.Intact) (hserved : s.arena.Served) (a : ScratchAction) : (s.step a).2.Intact :=
  (s.hosts_step _ a hs hserved).sublist (s.blocks_step a)

theorem arrays_step (hs : s.Intact) (hserved : s.arena.Served) (a : ScratchAction) :
    (s.step a).2.arrays = storeAfter s.arrays (a, (s.step a).1) := by
  have ht := hs.step hserved a
  cases a with
  | alloc guarded t value => exact arrays_of_array? rfl ht
  | allocZeroed guarded t count => exact arrays_of_array? rfl ht
  | allocCopy t values => exact arrays_of_array? rfl ht
  | set k index value => exact arrays_step_set hs k index value
  | reserve l =>
      rw [state_step_reserve, storeAfter, ScratchAction.granted_of_none rfl, List.append_nil]
      · rfl
      · nofun
      · nofun
  | contents k =>
      rw [state_step_contents, storeAfter, ScratchAction.granted_of_none rfl, List.append_nil]
      · nofun
      · nofun
  | allocUnit | config => exact (List.append_nil _).symm
  | reset => rfl

theorem step_answers (s : Scratch) {a : ScratchAction} {answer : ScratchAnswer}
    (h : storeAnswer s.arrays a = some answer) : (s.step a).1 = answer := by
  cases a with
  | contents k =>
      rw [storeAnswer, arrays, List.getElem?_map] at h
      cases hk : s.handles[k]? with
      | none =>
          rw [hk] at h
          cases h
          rw [step_contents_of_none hk]
      | some g =>
          rw [hk] at h
          cases h
          rw [step_contents hk]
          rfl
  | set k index value =>
      rw [storeAnswer, arrays, List.getElem?_map] at h
      cases hk : s.handles[k]? with
      | none =>
          rw [hk] at h
          cases h
          rw [step_set_of_none hk]
      | some g =>
          rw [hk] at h
          simp only [Option.map_some, arrayOf, length_contents] at h
          by_cases hi : index < g.count
          · rw [if_pos hi] at h
            cases h
            rw [step_set_of_lt hk hi, literals, contents_stored]
            rfl
          · rw [if_neg hi] at h
            cases h
            exact congrArg Prod.fst (step_set_of_le hk (Nat.not_lt.mp hi) value)
  | _ => cases h

end intact

/-- From whatever memory a run begins in, the live handles are those answered with since the last reset, they show the
arrays of a plain store that is granted the same requests, and reading or writing an element is answered as by that
store. -/
theorem run_refines_store (config : ArenaConfig) (source : ChunkSource) (m : Memory) (actions : List ScratchAction) :
    let s : Scratch := { Scratch.new config source with storage := m }
    s.ServedThrough actions →
    let store := (s.transcript actions).foldl storeAfter []
    (s.run actions).2.handles = (s.transcript actions).foldl handlesAfter [] ∧
    (s.run actions).2.arrays = store ∧
    ∀ a answer, storeAnswer store a = some answer → ((s.run actions).2.step a).1 = answer := by
  intro s hserved store
  have hhandles : (s.run actions).2.handles = (s.transcript actions).foldl handlesAfter [] := by
    refine run_tracks (fun s l => s.handles = l) handlesAfter ?_ rfl hserved
    rintro s l a rfl -
    exact s.handles_step a
  have hrun : (s.run actions).2.Intact ∧ (s.run actions).2.arrays = store := by
    refine run_tracks (fun s l => s.Intact ∧ s.arrays = l) storeAfter ?_ ⟨.nil, rfl⟩ hserved
    rintro s l a ⟨hs, rfl⟩ hserved
    exact ⟨hs.step hserved a, arrays_step hs hserved a⟩
  obtain ⟨-, hstore⟩ := hrun
  refine ⟨hhandles, hstore, fun a answer h => ?_⟩
  rw [← hstore] at h
  exact step_answers _ h

/-- An array of zeros where another array lay before the reset, with a value behind it. A request in between was refused,
and the second zero is written over. -/
theorem reused_memory_reads_zero :
    let s : Scratch := { Scratch.new ⟨16, some 64⟩ AddressSpace.placeChunk with storage := .pattern }
    let t := (s.run [.allocCopy (.unsigned .w16) [.integer 1, .integer 2], .allocZeroed true .block 1000, .reset,
      .allocZeroed false (.unsigned .w16) 2, .alloc true .float64 (.integer 5), .set 0 1 (.integer 9)]).2
    (t.step (.contents 0)).1 = .elements [.integer 0, .integer 9] ∧
      (t.step (.contents 1)).1 = .elements [.integer 5] := by
  dsimp only
  obtain ⟨-, -, hanswers⟩ := run_refines_store _ _ _ _ (servedThrough_of_inSlots (.new ⟨16, some 64⟩)
    [.allocCopy (.unsigned .w16) [.integer 1, .integer 2], .allocZeroed true .block 1000, .reset,
      .allocZeroed false (.unsigned .w16) 2, .alloc true .float64 (.integer 5), .set 0 1 (.integer 9)])
  exact ⟨hanswers (.contents 0) _ rfl, hanswers (.contents 1) _ rfl⟩

end Scratch

end CallCapture
