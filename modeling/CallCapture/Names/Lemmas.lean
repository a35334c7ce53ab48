import CallCapture.Names

namespace CallCapture.Names

variable {α : Type} {n : Names α} {name : String} {a b : α}

theorem mem_values_of_get? (h : n.get? name = some a) : a ∈ n.values := by
  obtain ⟨l, r, hentries, -⟩ := List.lookup_eq_some_iff.mp h
  rw [values, hentries]
  exact List.mem_map.mpr ⟨(name, a), List.mem_append_right l List.mem_cons_self, rfl⟩

theorem mem_values_of_mem_erase (h : b ∈ (n.erase name).values) : b ∈ n.values := by
  obtain ⟨e, he, rfl⟩ := List.mem_map.mp h
  exact List.mem_map_of_mem (List.mem_filter.mp he).1

theorem mem_values_put (h : b ∈ (n.put name a).values) : b = a ∨ b ∈ n.values := by
  rcases List.mem_cons.mp h with rfl | h
  · exact .inl rfl
  · exact .inr (mem_values_of_mem_erase h)

theorem mem_values_put_self (n : Names α) (name : String) (a : α) : a ∈ (n.put name a).values := List.mem_cons_self

theorem get?_put_self (n : Names α) (name : String) (a : α) : (n.put name a).get? name = some a := by
  rw [get?, put, List.lookup_cons_self]

theorem get?_erase_of_ne {other : String} (h : other ≠ name) : (n.erase name).get? other = n.get? other := by
  obtain ⟨entries⟩ := n
  change (entries.filter fun e => e.1 ≠ name).lookup other = entries.lookup other
  induction entries with
  | nil => rfl
  | cons e rest ih =>
      by_cases hname : e.1 = name
      · have hother : (other == e.1) = false := beq_false_of_ne (hname ▸ h)
        rw [List.filter_cons_of_neg (by simpa using hname), ih, List.lookup_cons, hother]
      · rw [List.filter_cons_of_pos (by simpa using hname), List.lookup_cons, List.lookup_cons, ih]

theorem get?_put_of_ne {other : String} (h : other ≠ name) : (n.put name a).get? other = n.get? other := by
  rw [get?, put, List.lookup_cons, beq_false_of_ne h]
  exact get?_erase_of_ne h

end CallCapture.Names
