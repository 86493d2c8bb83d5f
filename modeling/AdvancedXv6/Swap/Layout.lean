import AdvancedXv6.Lib.BitField

/-! Constants and macros of `param.h`, `memlayout.h`, `mmu.h`, `fs.h` and `pageswap.h`,
and what the page-table entries built by the swapping code decode to. -/

namespace Xv6.Swap

abbrev Word := BitVec 32

/-! A physical page (a frame) is named by its address divided by `pgSize`; the kernel pointer
to it is `P2V` of that address. -/

def pgSize : Nat := 4096
def nProc : Nat := 64
def kernBase : Nat := 0x80000000
def extMem : Nat := 0x100000
def physTop : Nat := 0x400000
def devSpace : Nat := 0xFE000000
def kernLink : Nat := kernBase + extMem
def nPdEntries : Nat := 1024
def fsSize : Nat := 10000
def nBuf : Nat := 30
def numSlots : Nat := 800
def blocksPerSlot : Nat := 8
def swapStart : Nat := 2
/-- `BSIZE` and `PGSIZE` counted in 32-bit words. -/
def blockWords : Nat := 128
def pageWords : Nat := 1024

/-- The null kernel pointer, as the frame number that `V2P` gives it. -/
def nullFrame : Nat := kernBase / pgSize

def pdx (va : Nat) : Nat := (va >>> 22) &&& 0x3FF
def ptx (va : Nat) : Nat := (va >>> 12) &&& 0x3FF
def pgAddr (d t o : Nat) : Nat := ((d <<< 22) ||| (t <<< 12) ||| o) % 2 ^ 32
def pgRoundUp (sz : Nat) : Nat := (sz + pgSize - 1) % 2 ^ 32 / pgSize * pgSize
def pgRoundDown (a : Nat) : Nat := a / pgSize * pgSize

/-- How many pages start below `sz`. -/
def pageCount (sz : Nat) : Nat := (sz + pgSize - 1) / pgSize

def pteP : Word := 0x001
def pteW : Word := 0x002
def pteU : Word := 0x004
def pteA : Word := 0x020
def pteS : Word := 0x200

def pteAddr (e : Word) : Word := e &&& ~~~0xFFF#32
def pteFlags (e : Word) : Word := e &&& 0xFFF#32

def Present (e : Word) : Prop := e &&& pteP ≠ 0
def Accessed (e : Word) : Prop := e &&& pteA ≠ 0
def Swapped (e : Word) : Prop := e &&& pteS ≠ 0
def User (e : Word) : Prop := e &&& pteU ≠ 0
def Writable (e : Word) : Prop := e &&& pteW ≠ 0

instance (e : Word) : Decidable (Present e) := inferInstanceAs (Decidable (_ ≠ _))
instance (e : Word) : Decidable (Accessed e) := inferInstanceAs (Decidable (_ ≠ _))
instance (e : Word) : Decidable (Swapped e) := inferInstanceAs (Decidable (_ ≠ _))
instance (e : Word) : Decidable (User e) := inferInstanceAs (Decidable (_ ≠ _))
instance (e : Word) : Decidable (Writable e) := inferInstanceAs (Decidable (_ ≠ _))

/-- The page frame of an entry: `PTE_ADDR(e)` divided by the page size. -/
def frameOf (e : Word) : Nat := (pteAddr e).toNat / pgSize
/-- The slot number of a swapped-out entry: `*pte >> 12`. -/
def slotOf (e : Word) : Nat := (e >>> 12).toNat
/-- The write and user permission of an entry. -/
def permOf (e : Word) : Word := e &&& (pteW ||| pteU)

/-- `V2P` of the pointer to a frame. -/
def v2p (f : Nat) : Word := BitVec.ofNat 32 (f * pgSize)

/-- `pa | perm | PTE_P`, the entry written by `mappages` and `swap_in`. -/
def mapEntry (f : Nat) (perm : Word) : Word := v2p f ||| perm ||| pteP
/-- `slot << 12 | (e & 0xFFF & ~PTE_P) | PTE_S`, the entry left by an eviction. -/
def swapEntry (slot : Int) (e : Word) : Word :=
  (BitVec.ofInt 32 slot <<< 12) ||| (pteFlags e &&& ~~~pteP) ||| pteS
/-- `e & 0xFFF & ~PTE_S`, the flags that an eviction saves with the slot. -/
def savedPerm (e : Word) : Word := pteFlags e &&& ~~~pteS

section Address

theorem pdx_eq (va : Nat) : pdx va = va / 4194304 % 1024 := by
  rw [pdx, Nat.shiftRight_eq_div_pow]
  exact Nat.and_two_pow_sub_one_eq_mod _ 10

theorem ptx_eq (va : Nat) : ptx va = va / 4096 % 1024 := by
  rw [ptx, Nat.shiftRight_eq_div_pow]
  exact Nat.and_two_pow_sub_one_eq_mod _ 10

theorem pdx_lt (va : Nat) : pdx va < nPdEntries := by
  rw [pdx_eq]
  exact Nat.mod_lt _ (by decide)

theorem ptx_lt (va : Nat) : ptx va < pageWords := by
  rw [ptx_eq]
  exact Nat.mod_lt _ (by decide)

@[simp] theorem pdx_page (pg : Nat) : pdx (pg * pgSize) = pg / 1024 % 1024 := by
  rw [pdx_eq, pgSize]
  omega

@[simp] theorem ptx_page (pg : Nat) : ptx (pg * pgSize) = pg % 1024 := by
  rw [ptx_eq, pgSize]
  omega

theorem pgRoundUp_eq {sz : Nat} (h : sz ≤ kernBase) : pgRoundUp sz = pageCount sz * pgSize := by
  rw [pgRoundUp, pageCount, Nat.mod_eq_of_lt]
  rw [kernBase] at h
  rw [pgSize]
  omega

theorem lt_pageCount {pg sz : Nat} : pg < pageCount sz ↔ pg * pgSize < sz := by
  rw [pageCount, pgSize]
  omega

theorem pageCount_le {sz : Nat} (h : sz ≤ kernBase) : pageCount sz ≤ 524288 := by
  rw [kernBase] at h
  rw [pageCount, pgSize]
  omega

end Address

section Entry
open BitField

theorem and_twoPow_ne_zero (e : Word) {i : Nat} (hi : i < 32) :
    e &&& BitVec.twoPow 32 i ≠ 0 ↔ e.getLsbD i = true := by
  have hp : BitVec.twoPow 32 i ≠ 0#32 := by
    intro h
    have hb := congrArg (fun x => x.getLsbD i) h
    simp [hi] at hb
  rw [BitVec.and_twoPow]
  cases e.getLsbD i <;> simp [hp]

theorem present_iff (e : Word) : Present e ↔ e.getLsbD 0 = true :=
  and_twoPow_ne_zero e (i := 0) (by decide)

theorem accessed_iff (e : Word) : Accessed e ↔ e.getLsbD 5 = true :=
  and_twoPow_ne_zero e (i := 5) (by decide)

theorem swapped_iff (e : Word) : Swapped e ↔ e.getLsbD 9 = true :=
  and_twoPow_ne_zero e (i := 9) (by decide)

theorem user_iff (e : Word) : User e ↔ e.getLsbD 2 = true :=
  and_twoPow_ne_zero e (i := 2) (by decide)

theorem user_congr {e e' : Word} (h : permOf e = permOf e') : User e ↔ User e' := by
  have hu (x : Word) : permOf x &&& pteU = x &&& pteU := by
    rw [permOf, BitVec.and_assoc]
    congr 1
  rw [User, User, ← hu e, ← hu e', h]

theorem frameOf_eq (e : Word) : frameOf e = field 12 e := by
  rw [← field_and_not e (k := 12) (m := 0xFFF#32) (by decide)]
  rfl

theorem slotOf_eq (e : Word) : slotOf e = field 12 e := (field_eq_ushiftRight e).symm

theorem frameOf_lt (e : Word) : frameOf e < 1048576 := by
  rw [frameOf_eq]
  exact field_lt e (by decide)

theorem pteFlags_lt (e : Word) : (pteFlags e).toNat < 4096 := and_lt (k := 12) (by decide)

theorem savedPerm_lt (e : Word) : (savedPerm e).toNat < 4096 := by
  rw [savedPerm, BitVec.toNat_and]
  exact lt_of_le_of_lt Nat.and_le_left (pteFlags_lt e)

/-! An entry written by `mappages` or `swap_in`. -/

theorem mapEntry_eq (f : Nat) (perm : Word) : mapEntry f perm = pack 12 f (perm ||| pteP) := by
  rw [mapEntry, pack, BitVec.or_assoc]
  rfl

theorem mapEntry_and (f : Nat) (perm : Word) {m : Word} (hm : m.toNat < 4096) :
    mapEntry f perm &&& m = (perm &&& m) ||| (pteP &&& m) := by
  rw [mapEntry_eq, pack_and f _ (k := 12) hm, BitVec.and_or_distrib_right]

@[simp] theorem present_mapEntry (f : Nat) (perm : Word) : Present (mapEntry f perm) := by
  rw [present_iff, mapEntry, BitVec.getLsbD_or]
  simp [pteP]

theorem frameOf_mapEntry {f : Nat} {perm : Word} (hf : f < 1048576) (hp : perm.toNat < 4096) :
    frameOf (mapEntry f perm) = f := by
  rw [frameOf_eq, mapEntry_eq]
  exact field_pack (k := 12) (or_lt hp (by decide)) (by omega)

theorem permOf_mapEntry (f : Nat) (perm : Word) : permOf (mapEntry f perm) = permOf perm := by
  rw [permOf, mapEntry_and f perm (by decide), permOf]
  exact BitVec.or_zero

theorem swapped_mapEntry (f : Nat) (perm : Word) : Swapped (mapEntry f perm) ↔ Swapped perm := by
  rw [Swapped, mapEntry_and f perm (by decide), Swapped,
    show pteP &&& pteS = 0#32 by decide, BitVec.or_zero]

theorem user_mapEntry (f : Nat) (perm : Word) : User (mapEntry f perm) ↔ User perm :=
  user_congr (permOf_mapEntry f perm)

/-! An entry left by an eviction. -/

theorem swapEntry_eq (slot : Nat) (e : Word) :
    swapEntry slot e = pack 12 slot ((pteFlags e &&& ~~~pteP) ||| pteS) := by
  have hs : BitVec.ofInt 32 (slot : Int) <<< 12 = BitVec.ofNat 32 (slot * 2 ^ 12) := by
    rw [BitVec.ofInt_natCast, ← Nat.shiftLeft_eq, ← BitVec.toNat_inj]
    simp [Nat.shiftLeft_eq]
  rw [swapEntry, pack, BitVec.or_assoc, hs]

theorem swapEntry_low_lt (e : Word) : ((pteFlags e &&& ~~~pteP) ||| pteS).toNat < 2 ^ 12 := by
  refine or_lt ?_ (by decide)
  rw [BitVec.toNat_and]
  exact lt_of_le_of_lt Nat.and_le_left (pteFlags_lt e)

theorem swapEntry_and (slot : Nat) (e : Word) {m : Word} (hm : m.toNat < 4096) :
    swapEntry slot e &&& m = ((pteFlags e &&& ~~~pteP) ||| pteS) &&& m := by
  rw [swapEntry_eq, pack_and slot _ (k := 12) hm]

@[simp] theorem not_present_swapEntry (slot : Nat) (e : Word) : ¬Present (swapEntry slot e) := by
  rw [Present, swapEntry_and slot e (by decide), BitVec.and_or_distrib_right, BitVec.and_assoc,
    show ~~~pteP &&& pteP = 0#32 by decide, BitVec.and_zero,
    show pteS &&& pteP = 0#32 by decide]
  simp

@[simp] theorem swapped_swapEntry (slot : Nat) (e : Word) : Swapped (swapEntry slot e) := by
  rw [swapped_iff, swapEntry, BitVec.getLsbD_or]
  simp [pteS]

theorem slotOf_swapEntry {slot : Nat} (e : Word) (hs : slot < 1048576) :
    slotOf (swapEntry slot e) = slot := by
  rw [slotOf_eq, swapEntry_eq]
  exact field_pack (k := 12) (swapEntry_low_lt e) (by omega)

theorem permOf_swapEntry (slot : Nat) (e : Word) : permOf (swapEntry slot e) = permOf e := by
  rw [permOf, swapEntry_and slot e (by decide), BitVec.and_or_distrib_right,
    show pteS &&& (pteW ||| pteU) = 0#32 by decide, BitVec.or_zero, pteFlags, BitVec.and_assoc,
    BitVec.and_assoc]
  rfl

theorem permOf_savedPerm (e : Word) : permOf (savedPerm e) = permOf e := by
  rw [savedPerm, pteFlags, permOf, BitVec.and_assoc, BitVec.and_assoc]
  rfl

theorem not_swapped_savedPerm (e : Word) : ¬Swapped (savedPerm e) := by
  rw [Swapped, savedPerm, BitVec.and_assoc, show ~~~pteS &&& pteS = 0#32 by decide,
    BitVec.and_zero]
  simp

/-! `*pte &= ~m` for a mask `m` of flags. -/

theorem frameOf_clear (e : Word) {m : Word} (hm : m.toNat < 4096) :
    frameOf (e &&& ~~~m) = frameOf e := by
  rw [frameOf_eq, frameOf_eq]
  exact field_and_not e (k := 12) hm

theorem slotOf_clear (e : Word) {m : Word} (hm : m.toNat < 4096) :
    slotOf (e &&& ~~~m) = slotOf e := by
  rw [slotOf_eq, slotOf_eq]
  exact field_and_not e (k := 12) hm

theorem and_clear (e : Word) {m q : Word} (h : ~~~m &&& q = q) : (e &&& ~~~m) &&& q = e &&& q := by
  rw [BitVec.and_assoc, h]

end Entry

end Xv6.Swap
