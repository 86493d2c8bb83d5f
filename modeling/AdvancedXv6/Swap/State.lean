import AdvancedXv6.Lib.Effect
import AdvancedXv6.Swap.Layout
import Mathlib.Logic.Function.Basic

/-! The kernel state that paging and swapping work on, and the hardware below them: physical
memory, the loaded page table with its translation cache, and the disk behind the buffer cache.
One CPU; each kernel operation runs to its end, and a disk wait is seen only as the reload of
`%cr3` that `scheduler` performs when the process runs again. -/

namespace Xv6.Swap
open Function

/-- The ways the kernel stops. -/
inductive Panic
  | acquire | release | kfree | sleep
  | noVictimPage | invalidMemoryPointer | incorrectBlockno
  | kallocFailedInSwapIn | invalidPteInSwapIn
  | remap | phystopTooHigh | inituvm | loaduvmAlign | loaduvmAddress | freevmNoPgdir | clearpteu
  | copyuvmPte | copyuvmPage | userinit | initExiting
  /-- a kernel access through a null pointer -/
  | nullPointer
  /-- a kernel access that faults again whenever `trap` returns: the thread is stuck -/
  | faultLoop
  deriving DecidableEq, Repr

/-- The text given to `panic`, where the kernel stops by one. -/
def Panic.text : Panic → String
  | .acquire => "acquire"
  | .release => "release"
  | .kfree => "kfree"
  | .sleep => "sleep"
  | .noVictimPage => "No victim page found"
  | .invalidMemoryPointer => "Invalid memory pointer"
  | .incorrectBlockno => "incorrect blockno"
  | .kallocFailedInSwapIn => "kalloc failed in swap_in"
  | .invalidPteInSwapIn => "Invalid pte in swap_in"
  | .remap => "remap"
  | .phystopTooHigh => "PHYSTOP too high"
  | .inituvm => "inituvm: more than a page"
  | .loaduvmAlign => "loaduvm: addr must be page aligned"
  | .loaduvmAddress => "loaduvm: address should exist"
  | .freevmNoPgdir => "freevm: no pgdir"
  | .clearpteu => "clearpteu"
  | .copyuvmPte => "copyuvm: pte should exist"
  | .copyuvmPage => "copyuvm: page not present or swapped"
  | .userinit => "userinit: out of memory?"
  | .initExiting => "init exiting"
  | .nullPointer => ""
  | .faultLoop => ""

inductive ProcState
  | unused | embryo | sleeping | runnable | running | zombie
  deriving DecidableEq, Repr

structure Proc where
  sz : Nat
  pgdir : Nat
  kstack : Nat
  state : ProcState
  pid : Nat
  parent : Option Nat
  killed : Bool
  rss : Nat

structure SwapSlot where
  pagePerm : Word
  isFree : Bool

abbrev Page := Nat → Word
abbrev Block := Nat → Word

/-- What the build fixes: the frames at which the kernel's data segment and the free memory
behind the kernel image start, and the `ALPHA` and `BETA` of the Makefile. -/
structure Image where
  data : Nat
  kend : Nat
  alpha : Nat
  beta : Nat
  link_lt_data : extMem / pgSize < data
  data_lt_kend : data < kend
  kend_le : kend ≤ physTop / pgSize
  alpha_le : alpha ≤ 100
  beta_le : beta ≤ 100

/-- What the history variable `trail` records; no function reads it. -/
inductive Event
  /-- `lcr3` -/
  | reload
  /-- `swap_out_one_page` overwrites the entry for `va` in the page table `d` -/
  | evict (d va : Nat)
  /-- `swap_in` enters a frame for `va` in the page table `d` -/
  | fetch (d va : Nat)
  /-- `copyuvm` copies a resident page of `d` -/
  | copy (d va : Nat)
  /-- `copyuvm` copies the entry of a swapped-out page of `d` -/
  | share (d va : Nat)
  deriving DecidableEq, Repr

structure Kernel where
  mem : Nat → Page
  disk : Nat → Block
  /-- the blocks in the buffer cache, the one released last first -/
  bufs : List Nat
  useLock : Bool
  kmemLocked : Bool
  freelist : List Nat
  freePagesCount : Int
  tH : Int
  nPg : Int
  swapSlots : Nat → SwapSlot
  proc : Nat → Proc
  nextpid : Nat
  initproc : Nat
  pipes : List Nat
  kpgdir : Nat
  /-- `mycpu()->proc` -/
  cur : Option Nat
  cr3 : Nat
  /-- for each user page, the entries of the loaded table that the MMU may still be using -/
  tlb : Nat → List Word
  /-- newest first -/
  trail : List Event

abbrev Kern (α : Type) := Effect.Prog Panic Kernel α

/-- A pointer to a page-table entry. -/
structure PtePtr where
  frame : Nat
  idx : Nat

namespace Kernel

def load (k : Kernel) (q : PtePtr) : Word := k.mem q.frame q.idx

/-- `walkpgdir2(pgdir, va, 0)`. -/
def walk (k : Kernel) (d va : Nat) : Option PtePtr :=
  if Present (k.mem d (pdx va)) then some ⟨frameOf (k.mem d (pdx va)), ptx va⟩ else none

/-- The entry for a page number below `2^20`. -/
def entry (k : Kernel) (d pg : Nat) : Option Word :=
  if Present (k.mem d (pg / 1024)) then some (k.mem (frameOf (k.mem d (pg / 1024))) (pg % 1024))
  else none

def log (k : Kernel) (evs : List Event) : Kernel := { k with trail := evs ++ k.trail }

def record (k : Kernel) (ev : Event) : Kernel := k.log [ev]

def setPage (k : Kernel) (f : Nat) (p : Page) : Kernel := { k with mem := update k.mem f p }

def setProc (k : Kernel) (i : Nat) (p : Proc) : Kernel := { k with proc := update k.proc i p }

/-- A store through a pointer to the entry for `va` of the page table `d`. If `d` is loaded, the
MMU may use the new entry from now on; an older one it may keep. -/
def setPte (k : Kernel) (d va : Nat) (q : PtePtr) (w : Word) : Kernel :=
  { k with
    mem := update k.mem q.frame (update (k.mem q.frame) q.idx w)
    tlb := if d = k.cr3 ∧ Present w then update k.tlb (va / pgSize) (w :: k.tlb (va / pgSize))
      else k.tlb }

def freshTlb (k : Kernel) (d pg : Nat) : List Word :=
  ((k.entry d pg).filter (fun e => Present e)).toList

/-- `lcr3`: only the entries of the new table that are present now can be in use afterwards. -/
def lcr3 (k : Kernel) (d : Nat) : Kernel :=
  { k with cr3 := d, tlb := k.freshTlb d, trail := .reload :: k.trail }

/-- `brelse` puts the buffer at the head of the list; a new block takes the place of the last. -/
def useBuf (k : Kernel) (b : Nat) : Kernel :=
  { k with bufs := (b :: k.bufs.erase b).take nBuf }

end Kernel

/-- `sleep` inside `iderw`: the scheduler loads `kpgdir`, and `switchuvm` the process's own table
again before the process goes on. -/
def waitDisk : Kern Unit := do
  let k ← get
  match k.cur with
  | none => throw .sleep
  | some p => modify fun k => k.lcr3 (k.proc p).pgdir

/-- `bread` with the `brelse` that follows the caller's use: a block that is in no buffer is
fetched by `iderw`. -/
def bread (b : Nat) : Kern Block := do
  let k ← get
  if b ∈ k.bufs then
    modify fun k => k.useBuf b
    pure (k.disk b)
  else do
    if fsSize ≤ b then throw .incorrectBlockno
    waitDisk
    modify fun k => k.useBuf b
    pure (k.disk b)

/-- `bwrite` of a buffer whose contents are `data`. -/
def bwrite (b : Nat) (data : Block) : Kern Unit := do
  if fsSize ≤ b then throw .incorrectBlockno
  modify fun k => { k with disk := update k.disk b data }
  waitDisk

end Xv6.Swap
