import Mathlib.Data.Nat.Bitwise
import Mathlib.Logic.Function.Basic
import Mathlib.Tactic.Ring

/-! Arrays of bytes: copies, little-endian numbers and bit maps. -/

namespace Bytes
open Function
variable {b b' src : Nat → UInt8} {i j k n o off w x : Nat}

/-! ### Copies -/

/-- `memmove(b + off, src, n)` -/
def put (b : Nat → UInt8) (off : Nat) (src : Nat → UInt8) (n : Nat) : Nat → UInt8 := fun k =>
  if off ≤ k ∧ k < off + n then src (k - off) else b k

theorem put_in (h : off ≤ k) (hk : k < off + n) : put b off src n k = src (k - off) := if_pos ⟨h, hk⟩

theorem put_out (h : k < off ∨ off + n ≤ k) : put b off src n k = b k := if_neg (by omega)

/-! ### Arrays -/

/-- `x` replaces what is at `off`, beyond the end if it is longer. -/
def overlay (a : List UInt8) (off : Nat) (x : List UInt8) : List UInt8 := a.take off ++ x ++ a.drop (off + x.length)

/-- An array that is given by its bytes. -/
theorem overlay_range {m : Nat} {f : Nat → UInt8} (h : off ≤ m) : overlay ((List.range m).map f) off ((List.range n).map src) =
    (List.range (max m (off + n))).map fun k => if off ≤ k ∧ k < off + n then src (k - off) else f k := by
  unfold overlay
  rw [List.length_map, List.length_range]
  apply List.ext_getElem
  · simp only [List.length_append, List.length_take, List.length_drop, List.length_map, List.length_range]
    omega
  · intro k hk hk'
    simp only [List.getElem_append, List.getElem_take, List.getElem_drop, List.getElem_map, List.getElem_range,
      List.length_append, List.length_take, List.length_map, List.length_range, min_eq_left h]
    by_cases hlow : k < off
    · rw [dif_pos (by omega), dif_pos hlow, if_neg (by omega)]
    · by_cases hin : k < off + n
      · rw [dif_pos hin, dif_neg hlow, if_pos ⟨by omega, hin⟩]
      · rw [dif_neg hin, if_neg fun hand => hin hand.2]
        exact congrArg f (by omega)

/-! ### Numbers -/

/-- The number in `w` bytes, the least significant byte first. -/
def word (b : Nat → UInt8) : Nat → Nat → Nat
  | _, 0 => 0
  | off, w + 1 => (b off).toNat + 256 * word b (off + 1) w

-- the equations of `word` are made here, once for all proofs
section
attribute [local simp] word
end

/-- The bytes of a number. -/
def digits (x : Nat) : Nat → UInt8 := fun k => UInt8.ofNat (x / 256 ^ k)

theorem word_lt : word b off w < 256 ^ w := by
  induction w generalizing off with
  | zero => exact Nat.one_pos
  | succ w ih =>
    have hb := (b off).toNat_lt
    have hw := @ih (off + 1)
    rw [word, pow_succ]
    omega

theorem word_congr (h : ∀ k, off ≤ k → k < off + w → b k = b' k) : word b off w = word b' off w := by
  induction w generalizing off with
  | zero => rfl
  | succ w ih =>
    rw [word, word, h off (Nat.le_refl _) (by omega), ih fun k hk hlt => h k (by omega) (by omega)]

theorem word_shift : word (fun k => b (k + o)) off w = word b (off + o) w := by
  induction w generalizing off with
  | zero => rfl
  | succ w ih =>
    rw [word, word, ih, Nat.add_right_comm]

/-- A number that is read from a copy of its bytes. -/
theorem word_window (h : ∀ k, k < w → b' k = b (o + k)) : word b' 0 w = word b o w := by
  have hshift : word (fun k => b (k + o)) 0 w = word b (0 + o) w := word_shift
  rw [Nat.zero_add] at hshift
  rw [← hshift]
  exact word_congr fun k _ hk => (h k (by omega)).trans (congrArg b (Nat.add_comm ..))

theorem word_digits : word (digits x) k w = x / 256 ^ k % 256 ^ w := by
  induction w generalizing k with
  | zero => exact (Nat.mod_one _).symm
  | succ w ih =>
    have hdigit : (digits x k).toNat = x / 256 ^ k % 256 := UInt8.toNat_ofNat'
    rw [word, ih, hdigit, pow_succ' 256 w, Nat.mod_mul, pow_succ, ← Nat.div_div_eq_div_mul]

theorem word_put (h : off ≤ o) (hw : o + w ≤ off + n) : word (put b off src n) o w = word src (o - off) w := by
  induction w generalizing o with
  | zero => rfl
  | succ w ih =>
    rw [word, word, put_in h (by omega), ih (by omega) (by omega), Nat.sub_add_comm h]

theorem word_put_out (h : o + w ≤ off ∨ off + n ≤ o) : word (put b off src n) o w = word b o w :=
  word_congr fun k hk hlt => put_out (by omega)

/-- A number is read as it was stored. -/
theorem word_put_digits (hx : x < 256 ^ w) : word (put b off (digits x) w) off w = x := by
  rw [word_put (Nat.le_refl _) (Nat.le_refl _), Nat.sub_self, word_digits, pow_zero, Nat.div_one, Nat.mod_eq_of_lt hx]

theorem word_zero : word (fun _ => 0) off w = 0 := by
  induction w generalizing off with
  | zero => rfl
  | succ w ih =>
    rw [word, ih]
    rfl

/-! ### Bit maps -/

/-- `1 << (i % 8)` -/
def mask (i : Nat) : UInt8 := UInt8.ofNat (2 ^ (i % 8))

def bit (b : Nat → UInt8) (i : Nat) : Bool := b (i / 8) &&& mask i ≠ 0

/-- `b[i/8] |= 1 << (i % 8)` -/
def setBit (b : Nat → UInt8) (i : Nat) : Nat → UInt8 := update b (i / 8) (b (i / 8) ||| mask i)

/-- `b[i/8] &= ~(1 << (i % 8))` -/
def clearBit (b : Nat → UInt8) (i : Nat) : Nat → UInt8 := update b (i / 8) (b (i / 8) &&& ~~~mask i)

theorem toNat_mask : (mask i).toNat = 2 ^ (i % 8) := by
  have hlt : 2 ^ (i % 8) < 2 ^ 8 := Nat.pow_lt_pow_right (by decide) (Nat.mod_lt i (by decide))
  exact (UInt8.toNat_ofNat' ..).trans (Nat.mod_eq_of_lt hlt)

theorem bit_eq : bit b i = (b (i / 8)).toNat.testBit (i % 8) := by
  have hand : (b (i / 8) &&& mask i).toNat = (b (i / 8)).toNat &&& 2 ^ (i % 8) := by
    rw [UInt8.toNat_and, toNat_mask]
  unfold bit
  rw [Bool.eq_iff_iff, decide_eq_true_eq, ← UInt8.toNat_inj.ne, hand, Nat.and_two_pow]
  cases (b (i / 8)).toNat.testBit (i % 8) with
  | false => simp
  | true => simp

theorem bit_setBit : bit (setBit b i) j = if j = i then true else bit b j := by
  rw [bit_eq, bit_eq]
  unfold setBit
  by_cases hq : j / 8 = i / 8
  · rw [hq, update_self, UInt8.toNat_or, toNat_mask, Nat.testBit_or, Nat.testBit_two_pow]
    by_cases hj : j = i
    · rw [if_pos hj, hj, decide_eq_true rfl, Bool.or_true]
    · rw [if_neg hj, decide_eq_false (by omega), Bool.or_false]
  · rw [update_of_ne hq, if_neg fun heq => hq (by rw [heq])]

theorem bit_clearBit : bit (clearBit b i) j = if j = i then false else bit b j := by
  rw [bit_eq, bit_eq]
  unfold clearBit
  by_cases hq : j / 8 = i / 8
  · have hnot : (~~~mask i).toNat = 2 ^ 8 - (2 ^ (i % 8) + 1) := by
      have hsize : UInt8.size = 2 ^ 8 := rfl
      rw [UInt8.toNat_not, toNat_mask, Nat.sub_sub, Nat.add_comm, hsize]
    have hlt : 2 ^ (i % 8) < 2 ^ 8 := Nat.pow_lt_pow_right (by decide) (Nat.mod_lt i (by decide))
    rw [hq, update_self, UInt8.toNat_and, hnot, Nat.testBit_and, Nat.testBit_two_pow_sub_succ hlt, Nat.testBit_two_pow,
      decide_eq_true (Nat.mod_lt j (by decide)), Bool.true_and]
    by_cases hj : j = i
    · rw [if_pos hj, hj, decide_eq_true rfl, Bool.not_true, Bool.and_false]
    · rw [if_neg hj, decide_eq_false (by omega), Bool.not_false, Bool.and_true]
  · rw [update_of_ne hq, if_neg fun heq => hq (by rw [heq])]

/-- The map with these bits. -/
def ofBits (P : Nat → Bool) : Nat → UInt8 := fun k => UInt8.ofNat (Nat.ofBits fun j : Fin 8 => P (8 * k + j))

theorem bit_ofBits (P : Nat → Bool) (i : Nat) : bit (ofBits P) i = P i := by
  have hlt : Nat.ofBits (fun j : Fin 8 => P (8 * (i / 8) + j)) < 2 ^ 8 := Nat.ofBits_lt_two_pow _
  have hbyte : (ofBits P (i / 8)).toNat = Nat.ofBits fun j : Fin 8 => P (8 * (i / 8) + j) :=
    (UInt8.toNat_ofNat' ..).trans (Nat.mod_eq_of_lt hlt)
  rw [bit_eq, hbyte, Nat.testBit_ofBits_lt _ _ (Nat.mod_lt i (by decide))]
  exact congrArg P (Nat.div_add_mod i 8)

end Bytes
