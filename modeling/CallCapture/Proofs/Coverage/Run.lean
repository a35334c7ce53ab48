import CallCapture.Coverage.Lemmas
import CallCapture.Coverage.Session

namespace CallCapture

/-- The insertions since the set was last emptied, the oldest first. -/
def CoverageAction.track (l : List (Nat × Nat)) : CoverageAction → List (Nat × Nat)
  | .insert start length => l ++ [(start, length)]
  | .clear | .capture | .captureThrough _ => []
  | .poke .. | .fill .. | .peek .. | .compare _ | .preview .. => l

def CoverageAction.captures : CoverageAction → Bool
  | .capture | .captureThrough _ => true
  | .insert .. | .clear | .poke .. | .fill .. | .peek .. | .compare _ | .preview .. => false

namespace CoverageSession

def reached (actions : List CoverageAction) : CoverageSession := (new.run actions).2

def outstanding (actions : List CoverageAction) : List (Nat × Nat) := actions.foldl CoverageAction.track []

theorem coverage_step {s : CoverageSession} {l : List (Nat × Nat)} (h : s.coverage = .ofList l)
    (a : CoverageAction) : (s.step a).2.coverage = .ofList (a.track l) := by
  cases a with
  | insert start length =>
      change s.coverage.insert start length = _
      rw [h]
      exact (Coverage.insertAll_concat .empty l start length).symm
  | clear | capture | captureThrough => rfl
  | poke | fill | peek | compare | preview => exact h

theorem coverage_run {s : CoverageSession} {l : List (Nat × Nat)} (h : s.coverage = .ofList l)
    (actions : List CoverageAction) :
    (s.run actions).2.coverage = .ofList (actions.foldl CoverageAction.track l) := by
  induction actions generalizing s l with
  | nil => exact h
  | cons a rest ih => exact ih (coverage_step h a)

theorem coverage_reached (actions : List CoverageAction) :
    (reached actions).coverage = .ofList (outstanding actions) :=
  coverage_run rfl actions

theorem answer_captureWith (s : CoverageSession) (reader : Reader) (f : Fault) :
    (s.captureWith reader).1 = .fault f ↔ s.coverage.captureFault? = some f := by
  simp only [captureWith]
  cases s.coverage.captureFault? <;> simp

theorem step_eq_fault (s : CoverageSession) (a : CoverageAction) (f : Fault) :
    (s.step a).1 = .fault f ↔
      a.captures ∧ f = .captureOverflow ∧ ∃ r ∈ s.coverage.ranges, maxBlockSize < r.length := by
  rw [← Coverage.captureFault?_eq_some]
  cases a with
  | capture => simpa [CoverageAction.captures, step] using answer_captureWith s s.memory.reader f
  | captureThrough reader => simpa [CoverageAction.captures, step] using answer_captureWith s reader f
  | insert | clear | poke | fill | peek | compare | preview => simp [CoverageAction.captures, step]

/-- After any actions the ranges are not empty and ascend with gaps, and hold exactly the outstanding insertions
below the top. No action faults but a capture, which does exactly when a range is longer than a block of memory;
what follows a faulted capture starts from the empty set. -/
theorem reached_separated_and_exact (actions : List CoverageAction) :
    (∀ r ∈ (reached actions).coverage.ranges, r.start < r.stop) ∧
    ((reached actions).coverage.ranges.Pairwise fun r s => r.stop < s.start) ∧
    (∀ a, (∃ r ∈ (reached actions).coverage.ranges, r.start ≤ a ∧ a < r.stop) ↔
      ∃ p ∈ outstanding actions, p.1 ≤ a ∧ a < min (p.1 + p.2) addressTop) ∧
    ∀ action f, ((reached actions).step action).1 = .fault f ↔
      action.captures ∧ f = .captureOverflow ∧
        ∃ r ∈ (reached actions).coverage.ranges, maxBlockSize < r.length := by
  have h := coverage_reached actions
  refine ⟨fun r _ => r.start_lt_stop, ?_, fun a => ?_, step_eq_fault _⟩
  · rw [h]
    exact Coverage.canonical_ofList _
  · rw [h]
    exact Coverage.mem_ofList _ a

theorem bridged_ranges_joined :
    ∃ r ∈ (reached [.insert 0 4, .insert 8 4, .insert 4 4]).coverage.ranges, r.start < r.stop ∧ r.length = 12 := by
  have h := (reached_separated_and_exact [.insert 0 4, .insert 8 4, .insert 4 4]).1
  exact ⟨⟨0, 12, by decide, by decide⟩, by decide, h _ (by decide), rfl⟩

theorem captureThrough_half_faults :
    ¬∀ actions : List CoverageAction, ∀ answer ∈ (new.run actions).1, ∀ f, answer.1 ≠ .fault f := by
  intro h
  refine h [.insert 0 (2 ^ 63), .captureThrough Memory.pattern.reader] (.fault .captureOverflow, .empty) ?_
    .captureOverflow rfl
  exact List.mem_cons_of_mem _ List.mem_cons_self

end CoverageSession

end CallCapture
