import AdvancedXv6.Swap.State

/-! `kalloc.c` and `pageswap.c`. -/

namespace Xv6.Swap
open Function Effect

variable (im : Image)

/-! ### The allocator's lock and `kfree` -/

def acquireKmem : Kern Unit := do
  let k ← get
  if k.useLock then
    if k.kmemLocked then throw .acquire
    modify fun k => { k with kmemLocked := true }

def releaseKmem : Kern Unit := do
  let k ← get
  if k.useLock then
    if ¬k.kmemLocked then throw .release
    modify fun k => { k with kmemLocked := false }

def getFreePages : Kern Int := do
  acquireKmem
  let k ← get
  releaseKmem
  pure k.freePagesCount

/-- The frames that `kfree` accepts: from `end` up to `PHYSTOP`. -/
def Image.Valid (v : Nat) : Prop := im.kend ≤ v ∧ v < physTop / pgSize

instance (v : Nat) : Decidable (im.Valid v) := inferInstanceAs (Decidable (_ ∧ _))

/-- `r->next`: the kernel pointer to the head of the list, or null. -/
def linkWord : List Nat → Word
  | [] => 0
  | f :: _ => v2p f + BitVec.ofNat 32 kernBase

/-- A freed page: `memset(v, 1, PGSIZE)`, then the link in the first word. -/
def junkPage (l : List Nat) : Page := update (fun _ => 0x01010101) 0 (linkWord l)

def kfree (v : Nat) : Kern Unit := do
  if ¬im.Valid v then throw .kfree
  modify fun k => k.setPage v (fun _ => 0x01010101)
  acquireKmem
  modify fun k => { k with
    mem := update k.mem v (update (k.mem v) 0 (linkWord k.freelist))
    freelist := v :: k.freelist
    freePagesCount := k.freePagesCount + 1 }
  releaseKmem

/-! ### Swap slots -/

/-- `2 + slot * BLOCKS_PER_SLOT + j`, an `int` passed as the `uint` block number. -/
def swapBlock (slot : Int) (j : Nat) : Nat :=
  (BitVec.ofInt 32 (swapStart + slot * blocksPerSlot + j)).toNat

def writeBlock (mem : Nat) (slot : Int) (j : Nat) : Kern Unit := do
  let _ ← bread (swapBlock slot j)
  let k ← get
  bwrite (swapBlock slot j) (fun i => k.mem mem (j * blockWords + i))

def writeToSwap (mem : Nat) (slot : Int) : Kern Unit :=
  forEach (List.range blocksPerSlot) (writeBlock mem slot)

def readBlock (mem : Nat) (slot : Int) (j : Nat) : Kern Unit := do
  let b ← bread (swapBlock slot j)
  modify fun k => k.setPage mem fun i =>
    if j * blockWords ≤ i ∧ i < (j + 1) * blockWords then b (i - j * blockWords) else k.mem mem i

def readFromSwap (mem : Nat) (slot : Int) : Kern Unit :=
  forEach (List.range blocksPerSlot) (readBlock mem slot)

def findFreeSlot : Kern Int := do
  let k ← get
  match (List.range numSlots).find? (fun i => (k.swapSlots i).isFree) with
  | some i =>
    modify fun k => { k with
      swapSlots := update k.swapSlots i ⟨(k.swapSlots i).pagePerm, false⟩ }
    pure i
  | none => pure (-1)

def freeSwapSlot (slot : Nat) : Kern Unit :=
  modify fun k => { k with swapSlots := update k.swapSlots slot ⟨0, true⟩ }

/-- `swap_slots[slot].page_perm = perm`. A store before the array hits memory that nothing here
reads. -/
def savePerm (slot : Int) (perm : Word) : Kern Unit :=
  modify fun k =>
    if slot < 0 then k
    else { k with
      swapSlots := update k.swapSlots slot.toNat ⟨perm, (k.swapSlots slot.toNat).isFree⟩ }

/-! ### The victim -/

def Kernel.Resident (k : Kernel) (d va : Nat) : Prop :=
  ∃ q, k.walk d va = some q ∧ Present (k.load q)

instance (k : Kernel) (d va : Nat) : Decidable (k.Resident d va) :=
  match h : k.walk d va with
  | none => isFalse (by rintro ⟨q, hq, _⟩; rw [h] at hq; cases hq)
  | some q =>
    if hp : Present (k.load q) then isTrue ⟨q, h, hp⟩
    else isFalse (by rintro ⟨q', hq, hp'⟩; rw [h] at hq; cases hq; exact hp hp')

/-- The addresses visited by `for (va = 0; va < sz; va += PGSIZE)`. -/
def pagesBelow (sz : Nat) : List Nat := (List.range (pageCount sz)).map (· * pgSize)

def Kernel.countResident (k : Kernel) (p : Proc) : Nat :=
  (pagesBelow p.sz).countP (fun va => k.Resident p.pgdir va)

def calcRss (p : Nat) : Kern Unit :=
  modify fun k => k.setProc p { k.proc p with rss := k.countResident (k.proc p) }

/-- The states whose processes may lose pages. -/
def Evictable (s : ProcState) : Prop := s = .runnable ∨ s = .running ∨ s = .sleeping

instance (s : ProcState) : Decidable (Evictable s) := inferInstanceAs (Decidable (_ ∨ _))

def victimLoop : List Nat → Option Nat → Int → Kern (Option Nat)
  | [], victim, _ => pure victim
  | p :: ps, victim, maxRss => do
    if Evictable ((← get).proc p).state then
      calcRss p
      let k ← get
      if maxRss < (k.proc p).rss ∨ ((k.proc p).rss = maxRss ∧
          ∀ v ∈ victim, (k.proc p).pid < (k.proc v).pid) then
        victimLoop ps (some p) (k.proc p).rss
      else victimLoop ps victim maxRss
    else victimLoop ps victim maxRss

/-- The first loop over the victim's pages: stop at a resident page whose accessed bit is clear,
and clear that bit on the way. -/
def secondChance (d : Nat) : List Nat → Kern (Option Nat)
  | [] => pure none
  | va :: vas => do
    let k ← get
    match k.walk d va with
    | none => secondChance d vas
    | some q =>
      if ¬Present (k.load q) then secondChance d vas
      else if ¬Accessed (k.load q) then pure (some va)
      else do
        modify fun k => k.setPte d va q (k.load q &&& ~~~pteA)
        secondChance d vas

/-- The second loop, entered when the first one found no page. -/
def firstResident (k : Kernel) (d : Nat) (vas : List Nat) : Option Nat :=
  vas.find? (fun va => k.Resident d va)

/-- The locals of `swap_out_one_page` that live across the disk writes. -/
structure Evictor where
  dir : Nat
  va : Nat
  pte : PtePtr
  mem : Nat
  slot : Int

/-- `swap_out_one_page` up to the first disk access. -/
def swapOutBegin : Kern Evictor := do
  match ← victimLoop (List.range nProc) none (-1) with
  | none => throw .nullPointer
  | some v =>
    let p := (← get).proc v
    let found ← secondChance p.pgdir (pagesBelow p.sz)
    let k ← get
    match found.or (firstResident k p.pgdir (pagesBelow p.sz)) with
    | none => throw .noVictimPage
    | some va =>
      match k.walk p.pgdir va with
      | none => throw .noVictimPage
      | some q => do
        let slot ← findFreeSlot
        if frameOf (k.load q) = nullFrame then throw .invalidMemoryPointer
        savePerm slot (savedPerm (k.load q))
        pure ⟨p.pgdir, va, q, frameOf (k.load q), slot⟩

/-- The rest of `swap_out_one_page` after the last disk write. -/
def swapOutEnd (ev : Evictor) : Kern Unit := do
  modify fun k => (k.setPte ev.dir ev.va ev.pte (swapEntry ev.slot (k.load ev.pte))).record
    (.evict ev.dir ev.va)
  kfree im ev.mem

def swapOutOnePage : Kern Unit := do
  let ev ← swapOutBegin
  writeToSwap ev.mem ev.slot
  swapOutEnd im ev

/-- The largest `N_pg`. -/
def limit : Int := 100

def adapt (k : Kernel) : Kernel :=
  { k with
    tH := k.tH - (k.tH * im.beta).tdiv 100
    nPg := min limit (k.nPg + (k.nPg * im.alpha).tdiv 100) }

def swapOutIfNeeded : Kern Unit := do
  let free ← getFreePages
  let k ← get
  if free ≤ k.tH then
    times k.nPg.toNat (swapOutOnePage im)
    modify (adapt im)

/-! ### `kalloc` and `swap_in` -/

def kalloc : Kern (Option Nat) := do
  let k ← get
  if k.tH < k.freePagesCount ∧ 0 < k.freePagesCount then
    acquireKmem
    let k ← get
    match k.freelist with
    | r :: rest =>
      modify fun k => { k with freelist := rest, freePagesCount := k.freePagesCount - 1 }
      releaseKmem
      pure (some r)
    | [] =>
      releaseKmem
      pure none
  else
    swapOutIfNeeded im
    acquireKmem
    let k ← get
    match k.freelist with
    | r :: rest =>
      modify fun k => { k with freelist := rest, freePagesCount := k.freePagesCount - 1 }
      releaseKmem
      pure (some r)
    -- this exit keeps `kmem.lock`
    | [] => pure none

def swapIn (p va slot : Nat) : Kern Unit := do
  swapOutIfNeeded im
  match ← kalloc im with
  | none => throw .kallocFailedInSwapIn
  | some mem =>
    readFromSwap mem slot
    let k ← get
    match k.walk (k.proc p).pgdir va with
    | none => throw .invalidPteInSwapIn
    | some q =>
      modify fun k =>
        (k.setPte (k.proc p).pgdir va q (mapEntry mem (k.swapSlots slot).pagePerm)).record
          (.fetch (k.proc p).pgdir va)

end Xv6.Swap
