import AdvancedXv6.Swap.Vm

/-! `proc.c`, the page-fault case of `trap.c`, `exec.c` and the allocation in `pipe.c`. -/

namespace Xv6.Swap
open Function Effect

variable (im : Image)

def myproc : Kern Nat := do
  match (← get).cur with
  | none => throw .nullPointer
  | some p => pure p

/-! ### Page faults -/

/-- The case `T_PGFLT` of `trap`. -/
def pgflt (va : Nat) : Kern Unit := do
  let p ← myproc
  let k ← get
  match k.walk (k.proc p).pgdir va with
  | none => modify fun k => k.setProc p { k.proc p with killed := true }
  | some q =>
    if ¬User (k.load q) ∨ Present (k.load q) then
      modify fun k => k.setProc p { k.proc p with killed := true }
    else if Swapped (k.load q) then swapIn im p va (slotOf (k.load q))
    else modify fun k => k.setProc p { k.proc p with killed := true }

/-- Kernel code touching a user address of the current process. In kernel mode `trap` returns to
the access, which is tried again. -/
def touch (va : Nat) : Kern Unit := do
  let p ← myproc
  let k ← get
  if ¬k.Resident (k.proc p).pgdir va then
    pgflt im va
    let k ← get
    if ¬k.Resident (k.proc p).pgdir va then throw .faultLoop

/-- Touch every page that meets `[va, va + n)`. -/
def touchRange (va n : Nat) : Kern Unit :=
  forEach ((List.range (pageCount (va + n) - va / pgSize)).map (fun i => (va / pgSize + i) * pgSize))
    (touch im)

/-! ### Processes -/

/-- `p->kstack = 0; p->state = UNUSED`. -/
def unuse (p : Nat) : Kern Unit :=
  modify fun k => k.setProc p { k.proc p with kstack := nullFrame, state := .unused }

def allocproc : Kern (Option Nat) := do
  let k ← get
  match (List.range nProc).find? (fun i => (k.proc i).state = .unused) with
  | none => pure none
  | some p => do
    modify fun k => { k.setProc p { k.proc p with state := .embryo, pid := k.nextpid } with
      nextpid := k.nextpid + 1 }
    match ← kalloc im with
    | none => do
      unuse p
      pure none
    | some f => do
      modify fun k => k.setProc p { k.proc p with kstack := f }
      pure (some p)

/-- `userinit` up to `namei`: the first process, with the words of `initcode`. -/
def userinit (initcode : Page) : Kern Unit := do
  match ← allocproc im with
  | none => throw .nullPointer
  | some p => do
    modify fun k => { k with initproc := p }
    match ← setupkvm im with
    | none => throw .userinit
    | some d => do
      inituvm im d initcode
      modify fun k => k.setProc p { k.proc p with pgdir := d, sz := pgSize, state := .runnable }

/-- `sz + n`, an `int` added to a `uint`. -/
def newSize (sz : Nat) (n : Int) : Nat := ((sz + n) % 2 ^ 32).toNat

def growproc (n : Int) : Kern Int := do
  let p ← myproc
  let sz := ((← get).proc p).sz
  let newsz := newSize sz n
  if 0 < n then
    let r ← allocuvm im ((← get).proc p).pgdir sz newsz
    if r = 0 then pure (-1)
    else do
      modify fun k => k.setProc p { k.proc p with sz := r }
      switchuvm p
      pure 0
  else if n < 0 then
    let r ← deallocuvm im ((← get).proc p).pgdir sz newsz
    if r = 0 then pure (-1)
    else do
      modify fun k => k.setProc p { k.proc p with sz := r }
      switchuvm p
      pure 0
  else do
    switchuvm p
    pure 0

def fork : Kern Int := do
  let p ← myproc
  match ← allocproc im with
  | none => pure (-1)
  | some np => do
    let k ← get
    match ← copyuvm im (k.proc p).pgdir (k.proc p).sz with
    | none => do
      kfree im ((← get).proc np).kstack
      unuse np
      pure (-1)
    | some c => do
      modify fun k => k.setProc np { k.proc np with
        pgdir := c, sz := (k.proc p).sz, parent := some p, state := .runnable }
      pure ((← get).proc np).pid

/-- Pass abandoned children of `p` to `initproc`. -/
def Kernel.reparent (k : Kernel) (p : Nat) (i : Nat) : Proc :=
  if (k.proc i).parent = some p then { k.proc i with parent := some k.initproc } else k.proc i

/-- `exit` once the files are closed. -/
def exit : Kern Unit := do
  let p ← myproc
  if p = (← get).initproc then throw .initExiting
  modify fun k => { k with proc := k.reparent p }
  modify fun k => { k.setProc p { k.proc p with state := .zombie } with cur := none }
  switchkvm

/-- One pass over the table by `wait`: a zombie child is reaped; otherwise nothing changes. -/
def wait : Kern (Option Nat) := do
  let p ← myproc
  let k ← get
  match (List.range nProc).find? (fun i => (k.proc i).parent = some p ∧ (k.proc i).state = .zombie) with
  | none => pure none
  | some i => do
    kfree im (k.proc i).kstack
    modify fun k => k.setProc i { k.proc i with kstack := nullFrame }
    freevm im (k.proc i).pgdir
    modify fun k => k.setProc i { k.proc i with
      pid := 0, parent := none, killed := false, state := .unused }
    pure (some (k.proc i).pid)

/-! ### `exec` -/

/-- A program header of type `ELF_PROG_LOAD`. -/
structure Segment where
  vaddr : Nat
  memsz : Nat
  filesz : Nat
  read : Nat → Option (Page → Page)
  memsz_lt : memsz < 2 ^ 32

/-- A NUL-terminated string of the caller, at a user address that `fetchstr` accepts. -/
structure UserString where
  addr : Nat
  bytes : List (BitVec 8)
  below : addr + bytes.length < kernBase

/-- The loop over the program headers: the new size, or `none` for `goto bad`. -/
def loadSegments (d : Nat) : List Segment → Nat → Kern (Option Nat)
  | [], sz => pure (some sz)
  | ph :: phs, sz =>
    if ph.memsz < ph.filesz then pure none
    else if (ph.vaddr + ph.memsz) % 2 ^ 32 < ph.vaddr then pure none
    else do
      let sz ← allocuvm im d sz ((ph.vaddr + ph.memsz) % 2 ^ 32)
      if sz = 0 then pure none
      else if ph.vaddr % pgSize ≠ 0 then pure none
      else if ← loaduvm d ph.vaddr ph.filesz ph.read then loadSegments d phs sz
      else pure none

/-- Push the argument strings from `sp` down; `none` for `goto bad`. -/
def pushArgs (d : Nat) : List UserString → Nat → List Nat → Kern (Option (Nat × List Nat))
  | [], sp, ustack => pure (some (sp, ustack))
  | s :: ss, sp, ustack =>
    if 32 ≤ ustack.length then pure none
    else do
      touchRange im s.addr (s.bytes.length + 1)
      let sp := (sp + 2 ^ 32 - (s.bytes.length + 1)) % 2 ^ 32 / 4 * 4
      touchRange im s.addr (s.bytes.length + 1)
      if ← copyout d sp (s.bytes ++ [0]) then pushArgs d ss sp (ustack ++ [sp])
      else pure none

/-- The bytes of a word, low byte first. -/
def wordBytes (w : Nat) : List (BitVec 8) :=
  (List.range 4).map (fun j => BitVec.ofNat 8 (w / 256 ^ j))

/-- From the first program header to the commit, with the new page directory `d` in hand;
`false` for `goto bad`. -/
def execImage (d : Nat) (phs : List Segment) (path : UserString) (argv : List UserString) :
    Kern Bool := do
  match ← loadSegments im d phs 0 with
  | none => pure false
  | some sz => do
    let sz := pgRoundUp sz
    let sz ← allocuvm im d sz (sz + 2 * pgSize)
    if sz = 0 then pure false
    else do
      clearpteu d (sz - 2 * pgSize)
      match ← pushArgs im d argv sz [] with
      | none => pure false
      | some (sp, args) => do
        let argc := args.length
        let ustack := [0xffffffff, argc, (sp + 2 ^ 32 - (argc + 1) * 4) % 2 ^ 32] ++ args ++ [0]
        let sp := (sp + 2 ^ 32 - (3 + argc + 1) * 4) % 2 ^ 32
        if ← copyout d sp (ustack.flatMap wordBytes) then do
          touchRange im path.addr (path.bytes.length + 1)
          let p ← myproc
          let old := ((← get).proc p).pgdir
          modify fun k => k.setProc p { k.proc p with pgdir := d, sz := sz }
          switchuvm p
          freevm im old
          pure true
        else pure false

/-- `exec` of a file that `namei` finds; `phs` is `none` when the ELF header is rejected. -/
def exec (phs : Option (List Segment)) (path : UserString) (argv : List UserString) :
    Kern Int := do
  match phs with
  | none => pure (-1)
  | some phs =>
    match ← setupkvm im with
    | none => pure (-1)
    | some d => do
      if ← execImage im d phs path argv then pure 0
      else do
        freevm im d
        pure (-1)

/-! ### Pipes -/

/-- `pipealloc` once both file structures are there. -/
def pipealloc : Kern Int := do
  match ← kalloc im with
  | none => pure (-1)
  | some f => do
    modify fun k => { k with pipes := f :: k.pipes }
    pure 0

/-- `pipeclose` of the last end of the pipe in page `f`. -/
def pipeclose (f : Nat) : Kern Unit := do
  kfree im f
  modify fun k => { k with pipes := k.pipes.erase f }

/-! ### The scheduler -/

/-- `scheduler` switches to the process `q`. -/
def dispatch (q : Nat) : Kern Unit := do
  modify fun k => { k with cur := some q }
  switchuvm q
  modify fun k => k.setProc q { k.proc q with state := .running }

/-- The current process gives up the CPU in state `s`. -/
def sched (s : ProcState) : Kern Unit := do
  let p ← myproc
  modify fun k => { k.setProc p { k.proc p with state := s } with cur := none }
  switchkvm

/-- `wakeup` of the processes that sleep on one channel. -/
def wakeup (chan : Nat → Bool) : Kern Unit :=
  modify fun k => { k with proc := fun i =>
    if (k.proc i).state = .sleeping ∧ chan i then { k.proc i with state := .runnable } else k.proc i }

def kill (pid : Nat) : Kern Int := do
  let k ← get
  match (List.range nProc).find? (fun i => (k.proc i).pid = pid) with
  | none => pure (-1)
  | some i => do
    modify fun k => k.setProc i { k.proc i with
      killed := true
      state := if (k.proc i).state = .sleeping then .runnable else (k.proc i).state }
    pure 0

/-- `trap` on a page fault; `user` is `(tf->cs & 3) == DPL_USER`. The result is `false` when
`exit` does not return. -/
def trapPgflt (va : Nat) (user : Bool) : Kern Bool := do
  pgflt im va
  let p ← myproc
  if ((← get).proc p).killed ∧ user then do
    exit
    pure false
  else pure true

/-! ### User code

What the MMU does for a user access to one byte; no page fault is taken if the entry permits the
access, and the accessed bit is set then. -/

def userLoad (va : Nat) : Kern (Option (BitVec 8)) := do
  let k ← get
  match k.walk k.cr3 va with
  | none => pure none
  | some q =>
    if Present (k.load q) ∧ User (k.load q) then do
      modify fun k => k.setPte k.cr3 va q (k.load q ||| pteA)
      pure (some (Page.byte (k.mem (frameOf (k.load q))) (va % pgSize)))
    else pure none

def userStore (va : Nat) (b : BitVec 8) : Kern Bool := do
  let k ← get
  match k.walk k.cr3 va with
  | none => pure false
  | some q =>
    if Present (k.load q) ∧ User (k.load q) ∧ Writable (k.load q) then do
      modify fun k => k.setPte k.cr3 va q (k.load q ||| pteA)
      modify fun k => k.setPage (frameOf (k.load q))
        (Page.setByte (k.mem (frameOf (k.load q))) (va % pgSize) b)
      pure true
    else pure false

end Xv6.Swap
