import AdvancedXv6.Swap.Boot

/-! `sbrk`: what a request does to the pages of the process that makes it. -/

namespace Xv6.Swap
open Function Effect Ownership

variable {im : Image} {k k₁ k' : Kernel} {d p pg sz : Nat} {n : Int} {E : Panic → Kernel → Prop}
  {lost : List Nat}

/-- The size is as asked for, and exactly the pages below it are mapped: the new ones filled with
zeros, the others as before. -/
structure Grown (k k' : Kernel) (p : Nat) (n : Int) : Prop where
  size : ((k'.proc p).sz : Int) = (k.proc p).sz + n
  mapped : ∀ pg, pg < pageCount (k'.proc p).sz → (k'.page (k'.proc p).pgdir pg).isSome
  fresh : ∀ pg, pageCount (k.proc p).sz ≤ pg → pg < pageCount (k'.proc p).sz →
    k'.page (k'.proc p).pgdir pg = some zeroPage
  kept : ∀ pg, pg < pageCount (k.proc p).sz → pg < pageCount (k'.proc p).sz →
    k'.page (k'.proc p).pgdir pg = k.page (k.proc p).pgdir pg
  bare : ∀ pg, pageCount (k'.proc p).sz ≤ pg → pg < userPages → k'.page (k'.proc p).pgdir pg = none

/-- Every page below the size is in memory or in a slot. -/
def Kernel.Whole (k : Kernel) (p : Nat) : Prop :=
  ∀ pg, pg < pageCount (k.proc p).sz → (k.page (k.proc p).pgdir pg).isSome

/-! ### The end of `growproc` -/

/-- The running process has its new size, and its page table is loaded again. -/
def Kernel.settled (k : Kernel) (p sz : Nat) : Kernel :=
  (k.resize p sz).lcr3 ((k.resize p sz).proc p).pgdir

section Growproc
variable (h : Good im k lost) (hp : k.cur = some p) (hsz : (k.proc p).sz < kernBase) (hw : k.Whole p)
include h hp hsz hw

end Growproc

/-- A kernel that ends a little above its data. -/
def smallImage : Image where
  data := 260
  kend := 280
  alpha := 20
  beta := 5
  link_lt_data := by decide
  data_lt_kend := by decide
  kend_le := by decide
  alpha_le := by decide
  beta_le := by decide

end Xv6.Swap
