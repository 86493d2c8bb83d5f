import Mathlib.Data.Nat.Bitwise
import Mathlib.Tactic.Ring

/-! Words that carry a number in their high bits and flags in the low `k` bits. -/

namespace BitField

variable {w k : Nat}

/-- The number above the low `k` bits. -/
def field (k : Nat) (e : BitVec w) : Nat := e.toNat / 2 ^ k

def pack (k hi : Nat) (lo : BitVec w) : BitVec w := BitVec.ofNat w (hi * 2 ^ k) ||| lo

theorem field_eq_ushiftRight (e : BitVec w) : field k e = (e >>> k).toNat := by
  rw [BitVec.toNat_ushiftRight, Nat.shiftRight_eq_div_pow, field]

theorem field_lt (e : BitVec w) (h : k ≤ w) : field k e < 2 ^ (w - k) := by
  have hlt := e.isLt
  rw [show 2 ^ w = 2 ^ (w - k) * 2 ^ k by rw [← pow_add, Nat.sub_add_cancel h]] at hlt
  exact Nat.div_lt_of_lt_mul (by rwa [Nat.mul_comm] at hlt)

theorem and_lt {e m : BitVec w} (hm : m.toNat < 2 ^ k) : (e &&& m).toNat < 2 ^ k := by
  rw [BitVec.toNat_and]
  exact Nat.and_lt_two_pow _ hm

theorem or_lt {a b : BitVec w} (ha : a.toNat < 2 ^ k) (hb : b.toNat < 2 ^ k) :
    (a ||| b).toNat < 2 ^ k := by
  rw [BitVec.toNat_or]
  exact Nat.or_lt_two_pow ha hb

theorem getLsbD_of_lt {m : BitVec w} (hm : m.toNat < 2 ^ k) {i : Nat} (hi : k ≤ i) :
    m.getLsbD i = false := by
  rw [BitVec.getLsbD]
  exact Nat.testBit_lt_two_pow (hm.trans_le (Nat.pow_le_pow_right (by decide) hi))

/-- Flags are read off the low part alone. -/
theorem pack_and (hi : Nat) (lo : BitVec w) {m : BitVec w} (hm : m.toNat < 2 ^ k) :
    pack k hi lo &&& m = lo &&& m := by
  rw [pack, BitVec.and_or_distrib_right]
  have hz : BitVec.ofNat w (hi * 2 ^ k) &&& m = 0#w := by
    apply BitVec.eq_of_getLsbD_eq
    intro i hiw
    rw [BitVec.getLsbD_and, BitVec.getLsbD_ofNat, BitVec.getLsbD_zero]
    rcases Nat.lt_or_ge i k with hik | hik
    · simp [Nat.testBit_mul_two_pow, Nat.not_le.mpr hik]
    · rw [getLsbD_of_lt hm hik, Bool.and_false]
  rw [hz, BitVec.zero_or]

theorem field_pack {hi : Nat} {lo : BitVec w} (hlo : lo.toNat < 2 ^ k) (hhi : hi * 2 ^ k < 2 ^ w) :
    field k (pack k hi lo) = hi := by
  rw [field, pack, BitVec.toNat_or, BitVec.toNat_ofNat, Nat.mod_eq_of_lt hhi,
    ← Nat.shiftLeft_eq, ← Nat.shiftLeft_add_eq_or_of_lt hlo, Nat.shiftLeft_eq]
  rw [Nat.mul_comm, Nat.mul_add_div (Nat.two_pow_pos k), Nat.div_eq_of_lt hlo, Nat.add_zero]

/-- Clearing flags keeps the number. -/
theorem field_and_not (e : BitVec w) {m : BitVec w} (hm : m.toNat < 2 ^ k) :
    field k (e &&& ~~~m) = field k e := by
  rw [field_eq_ushiftRight, field_eq_ushiftRight]
  congr 1
  apply BitVec.eq_of_getLsbD_eq
  intro i hi
  rw [BitVec.getLsbD_ushiftRight, BitVec.getLsbD_ushiftRight, BitVec.getLsbD_and,
    BitVec.getLsbD_not, getLsbD_of_lt hm (Nat.le_add_right k i)]
  rcases Nat.lt_or_ge (k + i) w with h | h
  · simp [h]
  · simp [BitVec.getLsbD_of_ge e _ h]

/-- Setting flags keeps the number. -/
theorem field_or (e : BitVec w) {m : BitVec w} (hm : m.toNat < 2 ^ k) :
    field k (e ||| m) = field k e := by
  rw [field_eq_ushiftRight, field_eq_ushiftRight]
  congr 1
  apply BitVec.eq_of_getLsbD_eq
  intro i hi
  rw [BitVec.getLsbD_ushiftRight, BitVec.getLsbD_ushiftRight, BitVec.getLsbD_or,
    getLsbD_of_lt hm (Nat.le_add_right k i), Bool.or_false]

end BitField
