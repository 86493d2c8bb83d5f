import AdvancedXv6.Lib.Run
import Mathlib.Logic.Function.Basic
import Mathlib.Data.BitVec

/-! A pipe with the files of its two ends and the processes that hold them. The steps of a process
end where it lets the lock of the pipe go. -/

namespace Xv6.Pipes
open Function

def pipesize : Nat := 512

abbrev Uint := BitVec 32

structure Pipe where
  data : Nat → UInt8
  nread : Uint
  nwrite : Uint
  readopen : Bool
  writeopen : Bool

inductive Chan
  /-- `&p->nread` -/
  | nread
  /-- `&p->nwrite` -/
  | nwrite
  deriving DecidableEq

/-- Where a process is. `false` is the end that is read, `true` the end that is written. -/
inductive Mode
  | user
  /-- in the loop of `pipewrite`, before byte `i` -/
  | writing (addr : Nat) (n : Int) (i : Nat)
  /-- in the first loop of `piperead` -/
  | reading (addr : Nat) (n : Int)
  /-- in `fileclose`, before `pipeclose` -/
  | closing (writable : Bool)
  deriving DecidableEq

structure Proc where
  mode : Mode
  /-- what the process sleeps on, if it does -/
  chan : Option Chan
  killed : Bool
  /-- the memory of the user -/
  mem : Nat → UInt8
  /-- what the last call has returned -/
  eax : Int

structure Sys where
  pipe : Pipe
  proc : Nat → Proc
  /-- `ref` of the two files -/
  ref : Bool → Nat
  /-- the descriptors of the two files, each by the process that has it -/
  fds : Bool → List Nat
  /-- the calls of `kfree` with the page of the pipe -/
  freed : Nat
  panic : Bool
  /-- the bytes that writers have stored, and those that readers have got -/
  accepted : List UInt8
  delivered : List UInt8

namespace Sys

def setProc (s : Sys) (c : Nat) (f : Proc → Proc) : Sys := { s with proc := update s.proc c (f (s.proc c)) }

theorem setProc_self (s : Sys) (c : Nat) (f : Proc → Proc) : (s.setProc c f).proc c = f (s.proc c) :=
  update_self ..

theorem setProc_of_ne {c d : Nat} (h : d ≠ c) (s : Sys) (f : Proc → Proc) : (s.setProc c f).proc d = s.proc d :=
  update_of_ne h ..

def wakeup (s : Sys) (chan : Chan) : Sys :=
  { s with proc := fun d => { s.proc d with chan := if (s.proc d).chan = some chan then none else (s.proc d).chan } }

def sleep (s : Sys) (c : Nat) (chan : Chan) (mode : Mode) : Sys :=
  s.setProc c fun p => { p with chan := some chan, mode := mode }

def ret (s : Sys) (c : Nat) (r : Int) : Sys := s.setProc c fun p => { p with mode := .user, eax := r }

/-- `p->data[p->nwrite++ % PIPESIZE] = *addr` -/
def put (s : Sys) (c addr : Nat) : Sys :=
  { s with
    pipe := { s.pipe with
      data := update s.pipe.data (s.pipe.nwrite.toNat % pipesize) ((s.proc c).mem addr)
      nwrite := s.pipe.nwrite + 1 }
    accepted := s.accepted ++ [(s.proc c).mem addr] }

/-- `*addr = p->data[p->nread++ % PIPESIZE]` -/
def take (s : Sys) (c addr : Nat) : Sys :=
  let b := s.pipe.data (s.pipe.nread.toNat % pipesize)
  { s.setProc c fun p => { p with mem := update p.mem addr b } with
    pipe := { s.pipe with nread := s.pipe.nread + 1 }
    delivered := s.delivered ++ [b] }

/-- The loop of `pipewrite` from byte `i` with `k` bytes to go, and what follows it. -/
def writeLoop (c addr : Nat) (n : Int) : Nat → Nat → Sys → Sys
  | 0, _, s => (s.wakeup .nread).ret c n
  | k + 1, i, s =>
    if s.pipe.nwrite = s.pipe.nread + BitVec.ofNat 32 pipesize then
      if !s.pipe.readopen || (s.proc c).killed then s.ret c (-1)
      else (s.wakeup .nread).sleep c .nwrite (.writing addr n i)
    else writeLoop c addr n k (i + 1) (s.put c (addr + i))

def pipewrite (s : Sys) (c addr : Nat) (n : Int) (i : Nat) : Sys := writeLoop c addr n (n.toNat - i) i s

/-- The second loop of `piperead` from byte `i` with `k` bytes to go, and what follows it. -/
def readLoop (c addr : Nat) : Nat → Nat → Sys → Sys
  | 0, i, s => (s.wakeup .nwrite).ret c i
  | k + 1, i, s =>
    if s.pipe.nread = s.pipe.nwrite then (s.wakeup .nwrite).ret c i
    else readLoop c addr k (i + 1) (s.take c (addr + i))

def piperead (s : Sys) (c addr : Nat) (n : Int) : Sys :=
  if s.pipe.nread = s.pipe.nwrite ∧ s.pipe.writeopen then
    if (s.proc c).killed then s.ret c (-1)
    else s.sleep c .nread (.reading addr n)
  else readLoop c addr n.toNat 0 s

def setOpen (p : Pipe) (writable : Bool) : Pipe :=
  if writable then { p with writeopen := false } else { p with readopen := false }

def pipeclose (s : Sys) (c : Nat) (writable : Bool) : Sys :=
  let pipe := setOpen s.pipe writable
  -- the page goes with the second end
  let freed := if pipe.writeopen || pipe.readopen then s.freed else s.freed + 1
  ({ s with pipe := pipe, freed := freed }.wakeup (if writable then .nread else .nwrite)).setProc c
    fun p => { p with mode := .user }

/-- A descriptor of `c` goes, with its reference. -/
def unref (s : Sys) (c : Nat) (writable : Bool) : Sys :=
  { s with
    ref := update s.ref writable (s.ref writable - 1)
    fds := update s.fds writable ((s.fds writable).erase c) }

/-- `fileclose` up to the release of the lock of the table. -/
def fileclose (s : Sys) (c : Nat) (writable : Bool) : Sys :=
  if s.ref writable < 1 then { s with panic := true }
  else if 0 < (s.unref c writable).ref writable then s.unref c writable
  else (s.unref c writable).setProc c fun p => { p with mode := .closing writable }

/-- `filedup` for a descriptor of `d`: by `dup`, or by `fork` for the child. -/
def filedup (s : Sys) (d : Nat) (writable : Bool) : Sys :=
  if s.ref writable < 1 then { s with panic := true }
  else { s with
    ref := update s.ref writable (s.ref writable + 1)
    fds := update s.fds writable (d :: s.fds writable) }

end Sys

inductive Event
  | write (c addr : Nat) (n : Int)
  | read (c addr : Nat) (n : Int)
  /-- a process that is not asleep goes on with its call -/
  | resume (c : Nat)
  | kill (c : Nat)
  /-- `c` copies a descriptor, for itself or for a child `d` -/
  | dup (c d : Nat) (writable : Bool)
  | close (c : Nat) (writable : Bool)
  /-- user code of `c` stores a byte -/
  | store (c addr : Nat) (b : UInt8)
  deriving DecidableEq

namespace Sys

/-- A call is made from user mode, with a descriptor. -/
def step (s : Sys) : Event → Option Sys
  | .write c addr n => if (s.proc c).mode = .user ∧ c ∈ s.fds true then some (s.pipewrite c addr n 0) else none
  | .read c addr n => if (s.proc c).mode = .user ∧ c ∈ s.fds false then some (s.piperead c addr n) else none
  | .resume c =>
    if (s.proc c).chan.isSome then none
    else match (s.proc c).mode with
      | .user => none
      | .writing addr n i => some (s.pipewrite c addr n i)
      | .reading addr n => some (s.piperead c addr n)
      | .closing writable => some (s.pipeclose c writable)
  | .kill c => some (s.setProc c fun p => { p with killed := true, chan := none })
  | .dup c d writable =>
    if (s.proc c).mode = .user ∧ c ∈ s.fds writable then some (s.filedup d writable) else none
  | .close c writable =>
    if (s.proc c).mode = .user ∧ c ∈ s.fds writable then some (s.fileclose c writable) else none
  | .store c addr b =>
    if (s.proc c).mode = .user then some (s.setProc c fun p => { p with mem := update p.mem addr b }) else none

/-- The pipe after `pipealloc`, with both ends in the hands of `c`. -/
def opened (data : Nat → UInt8) (mem : Nat → Nat → UInt8) (c : Nat) : Sys where
  pipe := { data := data, nread := 0, nwrite := 0, readopen := true, writeopen := true }
  proc := fun d => { mode := .user, chan := none, killed := false, mem := mem d, eax := 0 }
  ref := fun _ => 1
  fds := fun _ => [c]
  freed := 0
  panic := false
  accepted := []
  delivered := []

end Sys

end Xv6.Pipes
