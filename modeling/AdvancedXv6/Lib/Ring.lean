import Mathlib.Logic.Function.Basic
import Mathlib.Data.BitVec

/-! Ring buffers whose positions are counted without bound, in counters of `w` bits. -/

namespace Ring
open Function
variable {α : Type} {N w lo a b k : Nat} {buf : Nat → α} {xs ys : List α} {x : α}

/-- The cells of a ring of `N` cells, from position `lo` on, hold `xs`. -/
structure Holds (N : Nat) (buf : Nat → α) (lo : Nat) (xs : List α) : Prop where
  fits : xs.length ≤ N
  cell : ∀ k (h : k < xs.length), buf ((lo + k) % N) = xs[k]

theorem Holds.nil : Holds N buf lo [] :=
  ⟨Nat.zero_le _, fun _ h => absurd h (Nat.not_lt_zero _)⟩

theorem mod_ne (h : k < a) (ha : a < N) : (lo + k) % N ≠ (lo + a) % N := by
  intro heq
  have hmod : k ≡ a [MOD N] := Nat.ModEq.add_left_cancel' lo heq
  have := Nat.ModEq.eq_of_lt_of_lt hmod (Nat.lt_trans h ha) ha
  omega

theorem Holds.push (h : Holds N buf lo xs) (hlt : xs.length < N) (x : α) :
    Holds N (update buf ((lo + xs.length) % N) x) lo (xs ++ [x]) := by
  refine ⟨?_, fun k hk => ?_⟩
  · rw [List.length_append]
    exact hlt
  · rw [List.length_append, List.length_singleton] at hk
    obtain hk | rfl := Nat.lt_succ_iff_lt_or_eq.mp hk
    · rw [update_of_ne (mod_ne hk hlt), h.cell k hk, List.getElem_append_left hk]
    · rw [update_self, List.getElem_concat_length rfl]

theorem Holds.head (h : Holds N buf lo (x :: xs)) : buf (lo % N) = x :=
  h.cell 0 (Nat.succ_pos _)

theorem Holds.pop (h : Holds N buf lo (x :: xs)) : Holds N buf (lo + 1) xs := by
  refine ⟨Nat.le_of_succ_le h.fits, fun k hk => ?_⟩
  have hcell := h.cell (k + 1) (Nat.succ_lt_succ hk)
  rw [List.getElem_cons_succ] at hcell
  rw [Nat.add_right_comm]
  exact hcell

theorem Holds.of_append (h : Holds N buf lo (xs ++ ys)) : Holds N buf lo xs := by
  have hlen : xs.length ≤ (xs ++ ys).length := by
    rw [List.length_append]
    exact Nat.le_add_right ..
  refine ⟨Nat.le_trans hlen h.fits, fun k hk => ?_⟩
  rw [h.cell k (Nat.lt_of_lt_of_le hk hlen), List.getElem_append_left hk]

theorem Holds.drop (h : Holds N buf lo (xs ++ ys)) : Holds N buf (lo + xs.length) ys := by
  have hlen : (xs ++ ys).length = xs.length + ys.length := List.length_append
  have hfits := h.fits
  refine ⟨by omega, fun k hk => ?_⟩
  rw [Nat.add_assoc, h.cell (xs.length + k) (by omega), List.getElem_append_right (Nat.le_add_right ..)]
  congr 1
  exact Nat.add_sub_cancel_left ..

/-- Reading the cells in turn gives the list. -/
theorem Holds.read (h : Holds N buf lo xs) : ((List.range xs.length).map fun k => buf ((lo + k) % N)) = xs := by
  apply List.ext_getElem
  · rw [List.length_map, List.length_range]
  · intro k hk hk'
    rw [List.getElem_map, List.getElem_range, h.cell k hk']

/-! ### Counters -/

theorem ofNat_succ (a : Nat) : BitVec.ofNat w a + 1 = BitVec.ofNat w (a + 1) :=
  (BitVec.ofNat_add a 1).symm

/-- The cell of a position, from its counter. -/
theorem cell_ofNat (hdvd : N ∣ 2 ^ w) (a : Nat) : (BitVec.ofNat w a).toNat % N = a % N := by
  rw [BitVec.toNat_ofNat, Nat.mod_mod_of_dvd _ hdvd]

theorem sub_ofNat (h : a ≤ b) (hlt : b - a < 2 ^ w) :
    (BitVec.ofNat w b - BitVec.ofNat w a).toNat = b - a := by
  obtain ⟨c, rfl⟩ := Nat.exists_eq_add_of_le h
  rw [Nat.add_sub_cancel_left] at hlt
  rw [BitVec.ofNat_add, BitVec.add_comm, BitVec.add_sub_cancel, BitVec.toNat_ofNat,
    Nat.mod_eq_of_lt hlt, Nat.add_sub_cancel_left]

theorem ofNat_inj (h : a ≤ b) (hlt : b - a < 2 ^ w) : BitVec.ofNat w a = BitVec.ofNat w b ↔ a = b := by
  refine ⟨fun heq => ?_, fun heq => by rw [heq]⟩
  have hsub := sub_ofNat h hlt
  rw [heq, BitVec.sub_self] at hsub
  have : b - a = 0 := hsub.symm.trans BitVec.toNat_zero
  omega

/-- The test for a full ring. -/
theorem full_iff (h : a ≤ b) (hN : b - a ≤ N) (hlt : N < 2 ^ w) :
    BitVec.ofNat w b = BitVec.ofNat w a + BitVec.ofNat w N ↔ b = a + N := by
  rw [← BitVec.ofNat_add]
  have hsum : b ≤ a + N := Nat.sub_le_iff_le_add'.mp hN
  exact ofNat_inj hsum (by omega)

end Ring
