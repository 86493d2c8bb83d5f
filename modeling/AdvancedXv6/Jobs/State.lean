import Mathlib.Logic.Function.Basic
import Mathlib.Data.List.FinRange
import Mathlib.Algebra.Order.Ring.Int

/-! The process table with job control, user signals and priorities: `struct proc`, the trap frame
and the globals of the scheduler. One processor, as `CPUS` says. -/

namespace Xv6.Jobs
open Function

def nProc : Nat := 64
def initPriority : Int := 50

abbrev Slot := Fin nProc

/-- A value that is kept in an `int`. -/
@[irreducible] def int (x : Int) : Int := x.bmod (2 ^ 32)

theorem int_of_lt {x : Int} (h : -2 ^ 31 ≤ x) (h' : x < 2 ^ 31) : int x = x := by
  unfold int
  exact Int.bmod_eq_of_le (by omega) (by omega)

inductive ProcState
  | unused
  | embryo
  | sleeping
  | runnable
  | running
  | zombie
  | suspended
  deriving DecidableEq, Repr

inductive Chan
  /-- `&ticks` -/
  | ticks
  /-- a process, in `wait` -/
  | proc (p : Slot)
  | other (n : Nat)
  deriving DecidableEq

/-- `struct trapframe` -/
structure Frame where
  edi : Nat
  esi : Nat
  ebp : Nat
  oesp : Nat
  ebx : Nat
  edx : Nat
  ecx : Nat
  eax : Nat
  gs : Nat
  fs : Nat
  es : Nat
  ds : Nat
  trapno : Nat
  err : Nat
  eip : Nat
  cs : Nat
  eflags : Nat
  esp : Nat
  ss : Nat
  deriving DecidableEq

/-- Where a process goes on when the scheduler switches to it. -/
inductive Context
  /-- there is no kernel stack or no page table to go on with -/
  | none
  | forkret
  /-- in `sched`, called by `sleep` -/
  | sleep
  /-- in `sched`, called by `yield` in `trap` -/
  | yield
  /-- in `sched`, called by `yield2` in `trap` -/
  | yield2
  /-- in `sched`, called by `exit` -/
  | exit
  deriving DecidableEq

/-- The system calls in the middle of which other processes can run. -/
inductive Activity
  | none
  /-- `fork`, or `custom_fork` with its arguments; `copied` when the copy of the parent is there -/
  | fork (np : Slot) (custom : Option (Int × Int)) (copied : Bool)
  | wait
  | exit
  deriving DecidableEq

/-- `struct proc` -/
structure Proc where
  state : ProcState
  pid : Int
  parent : Option Slot
  tf : Frame
  tf1 : Option Frame
  context : Context
  activity : Activity
  chan : Option Chan
  killed : Bool
  customHandler : Nat
  pendingCustom : Bool
  prevEip : Nat
  execTime : Nat
  startLaterFlag : Int
  schedulingEnabled : Int
  rtime : Int
  creationTime : Int
  finishTime : Int
  firstRunTime : Int
  contextSwitches : Int
  initialPriority : Int
  dynPriority : Int
  cpuTicks : Int
  waitTicks : Int
  waitTicks2 : Int
  lastScheduled : Int
  deriving DecidableEq

structure Kernel where
  proc : Slot → Proc
  /-- `cpu->proc` -/
  cur : Option Slot
  nextpid : Int
  initproc : Slot
  ticks : Nat
  lastTicks : Nat
  yieldOnTimer : Nat
  prevProc : Option Slot
  panicked : Bool

/-- `cs` of a trap frame in user mode has the privilege level of user code. -/
def Frame.User (f : Frame) : Prop := f.cs % 4 = 3

instance (f : Frame) : Decidable f.User := inferInstanceAs (Decidable (_ = _))

namespace Kernel

def modify (k : Kernel) (i : Slot) (f : Proc → Proc) : Kernel :=
  { k with proc := update k.proc i (f (k.proc i)) }

/-- A loop over the process table. -/
def each (k : Kernel) (f : Slot → Proc → Proc) : Kernel := { k with proc := fun i => f i (k.proc i) }

/-- The first process of the table with `P`. -/
def find (k : Kernel) (P : Proc → Bool) : Option Slot :=
  (List.finRange nProc).find? fun i => P (k.proc i)

variable {k : Kernel} {i j : Slot} {f : Proc → Proc} {P : Proc → Bool}

@[simp] theorem modify_proc : (k.modify i f).proc i = f (k.proc i) := update_self _ _ _

@[simp] theorem modify_proc_of_ne (h : j ≠ i) : (k.modify i f).proc j = k.proc j :=
  update_of_ne h _ _

theorem find_some (h : k.find P = some i) : P (k.proc i) = true := by
  exact List.find?_some (p := fun i => P (k.proc i)) h

theorem find_none (h : k.find P = none) (i : Slot) : P (k.proc i) = false := by
  rw [find, List.find?_eq_none] at h
  exact Bool.eq_false_iff.mpr (h i (List.mem_finRange i))

end Kernel

end Xv6.Jobs
