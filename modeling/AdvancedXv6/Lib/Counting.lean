import Mathlib.Algebra.Order.BigOperators.Group.Finset
import Mathlib.Data.List.Count
import Mathlib.Logic.Function.Basic

/-! Counts and sums over a range, when one or two of the places change. -/

namespace Counting
open Function Finset
variable {i : Nat}

/-- The count of the places where a test holds, after a change at one place. -/
theorem countP_range_change {p q : Nat → Bool} {n : Nat} (hpq : ∀ m < n, m ≠ i → q m = p m) (hi : i < n) :
    (List.range n).countP q + (p i).toNat = (List.range n).countP p + (q i).toNat := by
  induction n with
  | zero => exact absurd hi (Nat.not_lt_zero i)
  | succ n ih =>
    simp only [List.range_succ, List.countP_append, List.countP_singleton]
    rcases Nat.lt_succ_iff_lt_or_eq.mp hi with hlt | rfl
    · rw [hpq n (Nat.lt_succ_self n) (Nat.ne_of_gt hlt)]
      have := ih (fun m hm => hpq m (Nat.lt_succ_of_lt hm)) hlt
      omega
    · have : (List.range i).countP q = (List.range i).countP p := by
        refine List.countP_congr fun m hm => ?_
        have hlt := List.mem_range.mp hm
        rw [hpq m (Nat.lt_succ_of_lt hlt) (Nat.ne_of_lt hlt)]
      rw [this]
      cases p i <;> cases q i <;> simp

/-- A sum whose terms change at one place. -/
theorem sum_change {s : Finset Nat} {f g : Nat → Nat} {i : Nat} (hfg : ∀ m ∈ s, m ≠ i → g m = f m) (hi : i ∈ s) :
    ∑ m ∈ s, g m + f i = ∑ m ∈ s, f m + g i := by
  have h : ∑ m ∈ s.erase i, g m = ∑ m ∈ s.erase i, f m :=
    sum_congr rfl fun m hm => hfg m (mem_of_mem_erase hm) (ne_of_mem_erase hm)
  rw [← add_sum_erase s g hi, ← add_sum_erase s f hi, h]
  omega

/-- A sum whose terms change at two places. -/
theorem sum_change_two {s : Finset Nat} {f g : Nat → Nat} {i j : Nat} (hij : i ≠ j)
    (hfg : ∀ m, m ≠ i → m ≠ j → g m = f m) (hi : i ∈ s) (hj : j ∈ s) :
    ∑ m ∈ s, g m + f i + f j = ∑ m ∈ s, f m + g i + g j := by
  have h₁ : ∑ m ∈ s, update f i (g i) m + f i = ∑ m ∈ s, f m + update f i (g i) i :=
    sum_change (fun m _ hm => update_of_ne hm ..) hi
  have h₂ : ∑ m ∈ s, g m + update f i (g i) j = ∑ m ∈ s, update f i (g i) m + g j := by
    refine sum_change (fun m _ hm => ?_) hj
    by_cases hmi : m = i
    · rw [hmi, update_self]
    · rw [update_of_ne hmi, hfg m hmi hm]
  rw [update_self] at h₁
  rw [update_of_ne hij.symm] at h₂
  omega

end Counting
