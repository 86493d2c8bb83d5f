import Mathlib.Logic.Function.Basic
import Mathlib.Data.List.Basic

/-! Writes to a store that can be cut short: what a prefix of them leaves, and what writing them all
again gives. -/

namespace Redo
open Function

variable {β : Type} {d d' : Nat → β} {ws ws' : List (Nat × β)} {b : Nat}

/-- The store after the writes, the first of the list first. -/
def install (d : Nat → β) (ws : List (Nat × β)) : Nat → β :=
  ws.foldl (fun d w => update d w.1 w.2) d

theorem install_nil : install d [] = d := rfl

theorem install_cons (w : Nat × β) : install d (w :: ws) = install (update d w.1 w.2) ws := rfl

theorem install_append : install d (ws ++ ws') = install (install d ws) ws' := List.foldl_append

theorem install_singleton (x : β) : install d [(b, x)] = update d b x := rfl

theorem install_of_ne (h : ∀ w ∈ ws, w.1 ≠ b) : install d ws b = d b := by
  induction ws generalizing d with
  | nil => rfl
  | cons w ws ih =>
    rw [install_cons, ih fun v hv => h v (List.mem_cons_of_mem _ hv)]
    exact update_of_ne (h w List.mem_cons_self).symm _ _

/-- Where every write to an address has the same value, the order does not matter. -/
theorem install_of_mem {f : Nat → β} (hf : ∀ w ∈ ws, w.2 = f w.1) (h : ∃ w ∈ ws, w.1 = b) :
    install d ws b = f b := by
  induction ws generalizing d with
  | nil =>
    obtain ⟨w, hw, -⟩ := h
    cases hw
  | cons w ws ih =>
    rw [install_cons]
    have hf' : ∀ v ∈ ws, v.2 = f v.1 := fun v hv => hf v (List.mem_cons_of_mem _ hv)
    by_cases hmem : ∃ v ∈ ws, v.1 = b
    · exact ih hf' hmem
    · obtain ⟨v, hv, rfl⟩ := h
      rcases List.mem_cons.mp hv with rfl | hv
      · rw [install_of_ne fun u hu huv => hmem ⟨u, hu, huv⟩, update_self]
        exact hf v List.mem_cons_self
      · exact absurd ⟨v, hv, rfl⟩ hmem

/-- What each of the writes keeps holds after any prefix of them. -/
theorem prefix_invariant {I : (Nat → β) → Prop} (hstep : ∀ d, ∀ w ∈ ws, I d → I (update d w.1 w.2))
    (h : I d) (k : Nat) : I (install d (ws.take k)) := by
  induction ws generalizing d k with
  | nil =>
    rw [List.take_nil]
    exact h
  | cons w ws ih =>
    cases k with
    | zero => exact h
    | succ k =>
      rw [List.take_succ_cons, install_cons]
      exact ih (fun d v hv => hstep d v (List.mem_cons_of_mem _ hv))
        (hstep d w List.mem_cons_self h) k

/-- A prefix of two batches is one of the first, or the first and a part of the second. -/
theorem take_append_cases (ws ws' : List (Nat × β)) (k : Nat) :
    (∃ j, (ws ++ ws').take k = ws.take j) ∨ ∃ j, (ws ++ ws').take k = ws ++ ws'.take (j + 1) := by
  by_cases hk : k ≤ ws.length
  · exact .inl ⟨k, List.take_append_of_le_length hk⟩
  · have hlt := Nat.lt_of_not_le hk
    refine .inr ⟨k - ws.length - 1, ?_⟩
    rw [List.take_append, List.take_of_length_le (Nat.le_of_lt hlt),
      Nat.sub_add_cancel (Nat.sub_pos_of_lt hlt)]

end Redo
