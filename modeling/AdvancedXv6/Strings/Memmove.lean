import AdvancedXv6.Lib.Copy

/-! `memmove` of the kernel and `memmove` of the user library. Pointers are the addresses of bytes, below 2^32. -/

namespace Xv6.Strings
open Function Bytes Copy
variable {m : Nat → UInt8} {a d dst n s src : Nat}

/-- the number of values of a pointer, and of a `uint` -/
def uint : Nat := 2 ^ 32

/-- `while(n-- > 0) *d++ = *s++;` -/
def copyUp (m : Nat → UInt8) (d s : Nat) : Nat → Nat → UInt8
  | 0 => m
  | n + 1 => copyUp (update m d (m s)) ((d + 1) % uint) ((s + 1) % uint) n

/-- `while(n-- > 0) *--d = *--s;` -/
def copyDown (m : Nat → UInt8) (d s : Nat) : Nat → Nat → UInt8
  | 0 => m
  | n + 1 =>
    let d := (d + (uint - 1)) % uint
    let s := (s + (uint - 1)) % uint
    copyDown (update m d (m s)) d s n

/-- of `string.c`, where `n` is a `uint` -/
def Kernel.memmove (m : Nat → UInt8) (dst src : Nat) (n : UInt32) : Nat → UInt8 :=
  if src < dst ∧ dst < (src + n.toNat) % uint then
    copyDown m ((dst + n.toNat) % uint) ((src + n.toNat) % uint) n.toNat
  else copyUp m dst src n.toNat

/-- of `ulib.c`, where `n` is an `int` -/
def User.memmove (m : Nat → UInt8) (dst src : Nat) (n : Int32) : Nat → UInt8 := copyUp m dst src n.toNatClampNeg

/-! ### Within the range of the pointers -/

theorem copyUp_eq (hd : d + n ≤ uint) (hs : s + n ≤ uint) : copyUp m d s n = up m d s n := by
  induction n generalizing m d s with
  | zero => rfl
  | succ n ih =>
    rw [copyUp, up]
    cases n with
    | zero => rfl
    | succ n =>
      rw [Nat.mod_eq_of_lt (by omega), Nat.mod_eq_of_lt (by omega)]
      exact ih (by omega) (by omega)

theorem pred_wrap (h : a + 1 ≤ uint) : ((a + 1) % uint + (uint - 1)) % uint = a := by
  rw [Nat.mod_add_mod, show a + 1 + (uint - 1) = a + uint by omega, Nat.add_mod_right, Nat.mod_eq_of_lt h]

theorem copyDown_eq (hd : d + n ≤ uint) (hs : s + n ≤ uint) :
    copyDown m ((d + n) % uint) ((s + n) % uint) n = down m d s n := by
  induction n generalizing m with
  | zero => rfl
  | succ n ih =>
    have hd' : ((d + (n + 1)) % uint + (uint - 1)) % uint = d + n := pred_wrap hd
    have hs' : ((s + (n + 1)) % uint + (uint - 1)) % uint = s + n := pred_wrap hs
    simp only [copyDown, down, hd', hs']
    have hrest := @ih (update m (d + n) (m (s + n))) (Nat.le_of_succ_le hd) (Nat.le_of_succ_le hs)
    rwa [Nat.mod_eq_of_lt (show d + n < uint from hd), Nat.mod_eq_of_lt (show s + n < uint from hs)] at hrest

/-- The kernel goes down where going up would read its own bytes. -/
theorem kernel_moves {n : UInt32} (hd : dst + n.toNat ≤ uint) (hs : src + n.toNat ≤ uint) :
    Kernel.memmove m dst src n = moved m dst src n.toNat := by
  unfold Kernel.memmove
  split
  · next hdown => rw [copyDown_eq hd hs, down_eq hdown.1.le]
  · next hup =>
    rw [copyUp_eq hd hs, up_eq_moved_iff]
    refine .inl (or_iff_not_imp_left.mpr fun hahead => not_lt.mp fun hnear => hup ?_)
    -- the end of the source lies before the end of the destination, hence does not wrap
    rw [Nat.mod_eq_of_lt (by omega)]
    exact ⟨not_le.mp hahead, hnear⟩

/-- The two agree, on the moved range, exactly when the user's copy cannot read what it has written, or reads the same. -/
theorem memmove_agree_iff (hn : n < 2 ^ 31) (hd : dst + n ≤ uint) (hs : src + n ≤ uint) :
    User.memmove m dst src (.ofNat n) = Kernel.memmove m dst src (.ofNat n) ∧
      Kernel.memmove m dst src (.ofNat n) = moved m dst src n ↔
    dst ≤ src ∨ src + n ≤ dst ∨ ∀ k, dst - src ≤ k → k < n → m (src + k) = m (src + (k - (dst - src))) := by
  have hu : (UInt32.ofNat n).toNat = n := UInt32.toNat_ofNat_of_lt' (Nat.lt_trans hn (by decide))
  have hi : (Int32.ofNat n).toNatClampNeg = n := Int32.toNatClampNeg_ofNat_of_lt hn
  have hkernel : Kernel.memmove m dst src (.ofNat n) = moved m dst src n := by
    have hmoves := kernel_moves (m := m) (n := .ofNat n) (hu.symm ▸ hd) (hu.symm ▸ hs)
    rwa [hu] at hmoves
  have huser : User.memmove m dst src (.ofNat n) = up m dst src n := by
    rw [User.memmove, hi, copyUp_eq hd hs]
  rw [huser, hkernel, and_iff_left rfl, up_eq_moved_iff, Clear, or_assoc]
  exact Iff.rfl

theorem memmove_agree_down : User.memmove (fun a => .ofNat a) 1 2 (.ofNat 2) = Kernel.memmove (fun a => .ofNat a) 1 2 (.ofNat 2) ∧
    Kernel.memmove (fun a => .ofNat a) 1 2 (.ofNat 2) = moved (fun a => .ofNat a) 1 2 2 :=
  (memmove_agree_iff (by decide) (by decide) (by decide)).mpr (.inl (by decide))

/-- Two bytes are moved by one place towards higher addresses. -/
theorem memmove_differ : User.memmove (fun a => .ofNat a) 2 1 (.ofNat 2) ≠ Kernel.memmove (fun a => .ofNat a) 2 1 (.ofNat 2) := by
  intro heq
  have hat := congrFun heq 3
  revert hat
  decide

end Xv6.Strings
