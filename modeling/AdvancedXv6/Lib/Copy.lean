import AdvancedXv6.Lib.Bytes

/-! Copying a range of a memory byte by byte, when the two ranges may overlap. -/

namespace Copy
open Function Bytes
variable {m : Nat → UInt8} {a d k n p s : Nat}

/-- From the lowest byte to the highest. -/
def up (m : Nat → UInt8) (d s : Nat) : Nat → Nat → UInt8
  | 0 => m
  | n + 1 => up (update m d (m s)) (d + 1) (s + 1) n

/-- From the highest byte to the lowest. -/
def down (m : Nat → UInt8) (d s : Nat) : Nat → Nat → UInt8
  | 0 => m
  | n + 1 => down (update m (d + n) (m (s + n))) d s n

/-- The old bytes of the source in the place of the destination. -/
def moved (m : Nat → UInt8) (d s n : Nat) : Nat → UInt8 := put m d (fun k => m (s + k)) n

/-- Two ranges of `n` bytes at `d` and at `s` for which the order of the copies does not matter going up. -/
def Clear (d s n : Nat) : Prop := d ≤ s ∨ s + n ≤ d

/-- The bytes of a range repeat after each `p` of them. -/
def Periodic (m : Nat → UInt8) (s n p : Nat) : Prop := ∀ k, p ≤ k → k < n → m (s + k) = m (s + (k - p))

theorem succ_mod (hp : 0 < p) : (k + 1) % p = if k % p + 1 = p then 0 else k % p + 1 := by
  have hlt := Nat.mod_lt k hp
  rw [← Nat.mod_add_mod]
  by_cases hlast : k % p + 1 = p
  · rw [if_pos hlast, hlast, Nat.mod_self]
  · rw [if_neg hlast, Nat.mod_eq_of_lt (by omega)]

/-- Where the destination is ahead in the source, going up finds there what it has put itself. -/
theorem up_eq : up m d s n = put m d (fun k => if s < d then m (s + k % (d - s)) else m (s + k)) n := by
  induction n generalizing m d s with
  | zero =>
    funext a
    exact (put_out (by omega)).symm
  | succ n ih =>
    rw [up, ih]
    funext a
    rcases Nat.lt_trichotomy a d with hlow | rfl | hhigh
    · rw [put_out (.inl (by omega)), put_out (.inl hlow), update_of_ne (by omega)]
    · rw [put_out (.inl (by omega)), put_in le_rfl (by omega), update_self, Nat.sub_self, Nat.zero_mod, ite_self,
        Nat.add_zero]
    · by_cases hin : a < d + (n + 1)
      · obtain ⟨k, rfl⟩ : ∃ k, a = d + 1 + k := ⟨a - (d + 1), by omega⟩
        rw [put_in (by omega) (by omega), put_in (by omega) (by omega)]
        have hk : d + 1 + k - (d + 1) = k := by omega
        have hk' : d + 1 + k - d = k + 1 := by omega
        simp only [hk, hk', Nat.add_lt_add_iff_right]
        by_cases hahead : s < d
        · have hpos : 0 < d - s := by omega
          have hlt := Nat.mod_lt k hpos
          rw [if_pos hahead, if_pos hahead, succ_mod hpos, Nat.add_sub_add_right]
          split
          · rw [show s + 1 + k % (d - s) = d by omega, update_self, Nat.add_zero]
          · rw [update_of_ne (by omega), Nat.add_assoc, Nat.add_comm 1]
        · rw [if_neg hahead, if_neg hahead, update_of_ne (by omega), Nat.add_assoc, Nat.add_comm 1]
      · rw [put_out (.inr (by omega)), put_out (.inr (by omega)), update_of_ne (by omega)]

theorem down_eq (h : s ≤ d) : down m d s n = moved m d s n := by
  induction n generalizing m with
  | zero =>
    funext a
    exact (put_out (by omega)).symm
  | succ n ih =>
    rw [down, ih]
    funext a
    unfold moved
    by_cases hin : d ≤ a ∧ a < d + n
    · rw [put_in hin.1 hin.2, put_in hin.1 (by omega), update_of_ne (by omega)]
    · rw [put_out (by omega)]
      by_cases hlast : a = d + n
      · subst hlast
        rw [update_self, put_in (by omega) (by omega), Nat.add_sub_cancel_left]
      · rw [update_of_ne hlast, put_out (by omega)]

theorem Periodic.mod (h : Periodic m s n p) (hp : 0 < p) (hk : k < n) : m (s + k % p) = m (s + k) := by
  induction k using Nat.strong_induction_on with
  | _ k ih =>
    by_cases hlow : k < p
    · rw [Nat.mod_eq_of_lt hlow]
    · rw [h k (by omega) hk, ← ih (k - p) (by omega) (by omega), ← Nat.mod_eq_sub_mod (by omega)]

theorem periodic_of_mod (h : ∀ k, k < n → m (s + k % p) = m (s + k)) : Periodic m s n p := fun k hp hk => by
  rw [← h k hk, ← h (k - p) (by omega), ← Nat.mod_eq_sub_mod hp]

/-- Going up moves the range exactly when it does not find its own bytes, or cannot tell them from the old ones. -/
theorem up_eq_moved_iff : up m d s n = moved m d s n ↔ Clear d s n ∨ Periodic m s n (d - s) := by
  rw [up_eq]
  constructor
  · intro heq
    by_cases hahead : s < d
    · refine .inr (periodic_of_mod fun k hk => ?_)
      have hat := congrFun heq (d + k)
      rw [moved, put_in (by omega) (by omega), put_in (by omega) (by omega), Nat.add_sub_cancel_left] at hat
      rwa [if_pos hahead] at hat
    · exact .inl (.inl (by omega))
  · intro hcond
    funext a
    by_cases hin : d ≤ a ∧ a < d + n
    · rw [moved, put_in hin.1 hin.2, put_in hin.1 hin.2]
      split
      · next hahead =>
        rcases hcond with hclear | hper
        · have hfar : a - d < d - s := by
            unfold Clear at hclear
            omega
          rw [Nat.mod_eq_of_lt hfar]
        · exact hper.mod (by omega) (by omega)
      · rfl
    · rw [moved, put_out (by omega), put_out (by omega)]

end Copy
