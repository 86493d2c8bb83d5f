import AdvancedXv6.Swap.Pageswap

/-! `vm.c`. -/

namespace Xv6.Swap
open Function Effect

variable (im : Image)

def walkpgdir (d va : Nat) (alloc : Bool) : Kern (Option PtePtr) := do
  let k ← get
  match k.walk d va with
  | some q => pure (some q)
  | none =>
    if ¬alloc then pure none
    else
      match ← kalloc im with
      | none => pure none
      | some t => do
        modify fun k => k.setPage t (fun _ => 0)
        modify fun k => k.setPage d
          (update (k.mem d) (pdx va) (v2p t ||| pteP ||| pteW ||| pteU))
        pure (some ⟨t, ptx va⟩)

/-- The loop of `mappages` over `n` pages from `a` on, mapped to the frames from `f` on. -/
def mapLoop (d : Nat) (perm : Word) : Nat → Nat → Nat → Kern Int
  | 0, _, _ => pure 0
  | n + 1, a, f => do
    match ← walkpgdir im d a true with
    | none => pure (-1)
    | some q => do
      let k ← get
      if Present (k.load q) then throw .remap
      modify fun k => k.setPte d a q (mapEntry f perm)
      mapLoop d perm n (a + pgSize) (f + 1)

/-- `mappages`; `f` is the frame of `pa`, which is page-aligned in every call. -/
def mappages (d va size f : Nat) (perm : Word) : Kern Int :=
  mapLoop im d perm
    ((pgRoundDown ((va + size - 1) % 2 ^ 32) - pgRoundDown va) / pgSize + 1) (pgRoundDown va) f

/-- The loop of `deallocuvm`; every turn moves `a` up by a page at least, so `pageCount oldsz`
turns are enough. -/
def deallocLoop (d oldsz : Nat) : Nat → Nat → Kern Unit
  | 0, _ => pure ()
  | n + 1, a =>
    if a < oldsz then do
      let k ← get
      match k.walk d a with
      | none => deallocLoop d oldsz n (pgAddr (pdx a + 1) 0 0 - pgSize + pgSize)
      | some q => do
        if Present (k.load q) then
          if frameOf (k.load q) = 0 then throw .kfree
          kfree im (frameOf (k.load q))
          modify fun k => k.setPte d a q 0
        else if Swapped (k.load q) then
          freeSwapSlot (slotOf (k.load q))
          modify fun k => k.setPte d a q 0
        deallocLoop d oldsz n (a + pgSize)
    else pure ()

def deallocuvm (d oldsz newsz : Nat) : Kern Nat :=
  if oldsz ≤ newsz then pure oldsz
  else do
    deallocLoop im d oldsz (pageCount oldsz) (pgRoundUp newsz)
    pure newsz

/-- The pages of the page tables, freed one by one. -/
def freeTables (d : Nat) : List Nat → Kern Unit
  | [] => pure ()
  | i :: is => do
    let k ← get
    if Present (k.mem d i) then kfree im (frameOf (k.mem d i))
    freeTables d is

def freevm (d : Nat) : Kern Unit := do
  if d = nullFrame then throw .freevmNoPgdir
  let _ ← deallocuvm im d kernBase 0
  freeTables im d (List.range nPdEntries)
  kfree im d

structure KmapEntry where
  virt : Nat
  physStart : Nat
  physEnd : Nat
  perm : Word

def kmap : List KmapEntry :=
  [⟨kernBase, 0, extMem, pteW⟩,
   ⟨kernLink, extMem, im.data * pgSize, 0⟩,
   ⟨kernBase + im.data * pgSize, im.data * pgSize, physTop, pteW⟩,
   ⟨devSpace, devSpace, 0, pteW⟩]

def mapKernel (d : Nat) : List KmapEntry → Kern Bool
  | [] => pure true
  | e :: es => do
    let size := (e.physEnd + 2 ^ 32 - e.physStart) % 2 ^ 32
    let r ← mappages im d e.virt size (e.physStart / pgSize) e.perm
    if r < 0 then pure false else mapKernel d es

def setupkvm : Kern (Option Nat) := do
  match ← kalloc im with
  | none => pure none
  | some d => do
    modify fun k => k.setPage d (fun _ => 0)
    if devSpace < kernBase + physTop then throw .phystopTooHigh
    if ← mapKernel im d (kmap im) then pure (some d)
    else do
      freevm im d
      pure none

def switchkvm : Kern Unit := modify fun k => k.lcr3 k.kpgdir

def switchuvm (p : Nat) : Kern Unit := modify fun k => k.lcr3 (k.proc p).pgdir

def kvmalloc : Kern Unit := do
  match ← setupkvm im with
  | none => throw .nullPointer
  | some d => do
    modify fun k => { k with kpgdir := d }
    switchkvm

/-- `inituvm` with the words of `init`, less than a page. -/
def inituvm (d : Nat) (init : Page) : Kern Unit := do
  match ← kalloc im with
  | none => throw .nullPointer
  | some mem => do
    modify fun k => k.setPage mem (fun _ => 0)
    let _ ← mappages im d 0 pgSize mem (pteW ||| pteU)
    modify fun k => k.setPage mem init

/-- The loop of `allocuvm`: `false` when memory runs out. -/
def allocLoop (d oldsz newsz : Nat) : List Nat → Kern Bool
  | [] => pure true
  | a :: as => do
    match ← kalloc im with
    | none => do
      let _ ← deallocuvm im d newsz oldsz
      pure false
    | some mem => do
      modify fun k => k.setPage mem (fun _ => 0)
      let r ← mappages im d a pgSize mem (pteW ||| pteU)
      if r < 0 then do
        let _ ← deallocuvm im d newsz oldsz
        kfree im mem
        pure false
      else allocLoop d oldsz newsz as

/-- The addresses visited by `for (a = PGROUNDUP(oldsz); a < newsz; a += PGSIZE)`. -/
def pagesBetween (oldsz newsz : Nat) : List Nat :=
  (List.range (pageCount newsz - pageCount oldsz)).map (fun i => pgRoundUp oldsz + i * pgSize)

def allocuvm (d oldsz newsz : Nat) : Kern Nat :=
  if kernBase ≤ newsz then pure 0
  else if newsz < oldsz then pure oldsz
  else do
    if ← allocLoop im d oldsz newsz (pagesBetween oldsz newsz) then
      let k ← get
      match k.cur with
      | none => throw .nullPointer
      | some p => do
        modify fun k => k.setProc p { k.proc p with
          rss := (k.proc p).rss + (pageCount newsz - pageCount oldsz) }
        pure newsz
    else pure 0

/-- `loaduvm`; `read i` is what `readi` does to the frame of page `i` of the segment, `none` for a
short read. -/
def loadLoop (d addr : Nat) (read : Nat → Option (Page → Page)) : List Nat → Kern Bool
  | [] => pure true
  | i :: is => do
    let k ← get
    match k.walk d (addr + i * pgSize) with
    | none => throw .loaduvmAddress
    | some q =>
      match read i with
      | none => pure false
      | some w => do
        modify fun k => k.setPage (frameOf (k.load q)) (w (k.mem (frameOf (k.load q))))
        loadLoop d addr read is

def loaduvm (d addr sz : Nat) (read : Nat → Option (Page → Page)) : Kern Bool :=
  if addr % pgSize ≠ 0 then throw .loaduvmAlign
  else loadLoop d addr read (List.range (pageCount sz))

def clearpteu (d uva : Nat) : Kern Unit := do
  let k ← get
  match k.walk d uva with
  | none => throw .clearpteu
  | some q => modify fun k => k.setPte d uva q (k.load q &&& ~~~pteU)

/-- The loop of `copyuvm`: `false` stands for `goto bad`. -/
def copyLoop (d c : Nat) : List Nat → Kern Bool
  | [] => pure true
  | va :: vas => do
    let k ← get
    match k.walk d va with
    | none => throw .copyuvmPte
    | some q =>
      let e := k.load q
      if ¬Present e ∧ ¬Swapped e then throw .copyuvmPage
      else if Present e then do
        match ← kalloc im with
        | none => pure false
        | some mem => do
          modify fun k => (k.setPage mem (k.mem (frameOf e))).record (.copy d va)
          let r ← mappages im c va pgSize mem (pteFlags e)
          if r < 0 then do
            kfree im mem
            pure false
          else copyLoop d c vas
      else do
        modify fun k => k.record (.share d va)
        let r ← mappages im c va pgSize (slotOf e) (pteFlags e)
        if r < 0 then pure false else copyLoop d c vas

def copyuvm (d sz : Nat) : Kern (Option Nat) := do
  match ← setupkvm im with
  | none => pure none
  | some c => do
    if ← copyLoop im d c (pagesBelow sz) then pure (some c)
    else do
      freevm im c
      pure none

/-! ### `copyout`, byte by byte within a page -/

def Page.byte (p : Page) (o : Nat) : BitVec 8 := (p (o / 4) >>> (8 * (o % 4))).setWidth 8

def Page.setByte (p : Page) (o : Nat) (b : BitVec 8) : Page :=
  update p (o / 4) ((p (o / 4) &&& ~~~(0xFF#32 <<< (8 * (o % 4)))) |||
    (b.setWidth 32 <<< (8 * (o % 4))))

def Page.setBytes (p : Page) : Nat → List (BitVec 8) → Page
  | _, [] => p
  | o, b :: bs => (p.setByte o b).setBytes (o + 1) bs

/-- `uva2ka`: the frame, or `none` for a null pointer. -/
def uva2ka (d uva : Nat) : Kern (Option Nat) := do
  let k ← get
  match k.walk d uva with
  | none => throw .nullPointer
  | some q =>
    if ¬Present (k.load q) then pure none
    else if ¬User (k.load q) then pure none
    else pure (some (frameOf (k.load q)))

/-- The loop of `copyout`; each turn copies a byte at least, so `buf.length` turns are enough. -/
def copyoutLoop (d : Nat) : Nat → Nat → List (BitVec 8) → Kern Bool
  | 0, _, _ => pure true
  | n + 1, va, buf =>
    if buf = [] then pure true
    else do
      match ← uva2ka d (pgRoundDown va) with
      | none => pure false
      | some f => do
        let m := pgSize - (va - pgRoundDown va)
        modify fun k => k.setPage f ((k.mem f).setBytes (va - pgRoundDown va) (buf.take m))
        copyoutLoop d n ((pgRoundDown va + pgSize) % 2 ^ 32) (buf.drop m)

def copyout (d va : Nat) (buf : List (BitVec 8)) : Kern Bool := copyoutLoop d buf.length va buf

end Xv6.Swap
