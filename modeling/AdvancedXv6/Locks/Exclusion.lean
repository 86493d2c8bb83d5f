import AdvancedXv6.Locks.Run

/-! What the spinlocks are for: no two CPUs are between `acquire` and `release` of one lock. -/

namespace Xv6.Locks
open Function

/-- A thread with this to do is between the two ends of a critical section of `l`: the next thing that it
does about the lock is not to take it. -/
def Inside (l : Lock) : Code → Prop
  | [] => False
  | .setCpu k :: code | .checkHeld k :: code | .clearCpu k :: code | .clear k :: code => k = l ∨ Inside l code
  | .checkFree k :: code | .xchg k :: code => k ≠ l ∧ Inside l code
  | .sched :: _ | .alloc _ :: _ | .scan :: _ => l = .ptable
  | .notHeld :: _ => False
  | _ :: code => Inside l code

instance Inside.decidable (l : Lock) : ∀ code, Decidable (Inside l code)
  | [] => .isFalse id
  | x :: code => by
    have := Inside.decidable l code
    cases x <;> unfold Inside <;> infer_instance

section
variable {a : Flow} {l : Lock} {code : Code} {x : Instr}

/-- The code says what is held. -/
theorem Flows.inside (h : Flows code a) (ok : a.Ok) : Inside l code ↔ l ∈ a.held := by
  induction code generalizing a with
  | nil => exact iff_of_false id (h.2.2.1 ▸ Finset.notMem_empty l)
  | cons x code ih =>
    obtain ⟨hallowed, hrest⟩ := h
    have hnext := ok.next hallowed
    obtain ⟨hpark, hguard⟩ := hallowed
    have hrest (hlast : ¬x.last a) : Inside l code ↔ l ∈ (x.next a).held := ih (hrest.resolve_left hlast) hnext
    cases x with
    | setCpu k | clearCpu k =>
      by_cases hk : k = l
      · exact iff_of_true (.inl hk) (hk ▸ hguard)
      · exact (or_iff_right hk).trans (hrest id)
    | checkHeld k =>
      by_cases hk : k = l
      · exact iff_of_true (.inl hk) (hk ▸ ok.named hguard)
      · exact (or_iff_right hk).trans (hrest id)
    | clear k =>
      by_cases hk : k = l
      · exact iff_of_true (.inl hk) (hk ▸ hguard.1)
      · refine (or_iff_right hk).trans ((hrest id).trans ?_)
        simp [Instr.next, Ne.symm hk]
    | checkFree k =>
      by_cases hk : k = l
      · exact iff_of_false (fun h => h.1 hk) (hk ▸ hguard)
      · exact (and_iff_right hk).trans (hrest id)
    | xchg k =>
      by_cases hk : k = l
      · exact iff_of_false (fun h => h.1 hk) (hk ▸ hguard.2.1)
      · refine (and_iff_right hk).trans ((hrest id).trans ?_)
        simp [Instr.next, Ne.symm hk]
    | sched =>
      rw [(ok.parked (hpark.mpr rfl)).1.2.1, Finset.mem_singleton]
      rfl
    | alloc | scan =>
      rw [hguard.1.2.1, Finset.mem_singleton]
      rfl
    | notHeld =>
      rw [hguard.2.1]
      exact iff_of_false id (Finset.notMem_empty l)
    | zombieExit => exact absurd hguard id
    | _ => exact hrest id

end

namespace Sys
variable {C : Type} [DecidableEq C] {s t : Sys C} {a : Thread C → Flow} {c d : C} {l : Lock} {init : Slot}

omit [DecidableEq C] in
theorem Wf.inside (h : Wf s a) : Inside l (s.code c) ↔ l ∈ (a (s.cur c)).held := by
  rw [code_eq]
  exact (h.threads.flows _ live_cur).inside (h.threads.ok _)

omit [DecidableEq C] in
theorem Wf.locked_iff (h : Wf s a) : (s.lock l).locked = true ↔ ∃ c, Inside l (s.code c) := by
  constructor
  · intro hl
    obtain ⟨c, hc⟩ := h.spins.holds.covered hl
    exact ⟨c, h.inside.mpr hc⟩
  · rintro ⟨c, hc⟩
    exact h.spins.holds.valid (h.inside.mp hc)

/-- One CPU has taken `ptable.lock`, and the other spins for it. -/
def race : List (Event Bool) := List.replicate 5 (.exec true) ++ List.replicate 3 (.exec false)

end Sys

end Xv6.Locks
