import AdvancedXv6.Lib.Run
import Mathlib.Logic.Function.Basic
import Mathlib.Data.List.FinRange

/-! The process table without signals: `fork`, `exit`, `wait` and `kill`, each cut where
`ptable.lock` is let go. -/

namespace Xv6.Family
open Function

def nProc : Nat := 64

abbrev Slot := Fin nProc

inductive ProcState
  | unused
  | embryo
  | sleeping
  | runnable
  | running
  | zombie
  deriving DecidableEq

inductive Chan
  /-- a process, in `wait` -/
  | proc (p : Slot)
  | other (n : Nat)
  deriving DecidableEq

/-- Where the code of a process is. -/
inductive Activity
  | user
  /-- in a system call, after the test of `trap` -/
  | kernel
  /-- after the system call, before the second test of `trap` -/
  | returning
  /-- in `fork` after `allocproc`; `copied` when the child has its parent -/
  | fork (np : Slot) (copied : Bool)
  /-- in `exit`, before it takes the lock -/
  | exit
  | wait
  deriving DecidableEq

structure Proc where
  state : ProcState
  pid : Nat
  parent : Option Slot
  chan : Option Chan
  killed : Bool
  activity : Activity
  /-- what the last call has returned -/
  eax : Int

structure Table where
  proc : Slot → Proc
  nextpid : Nat
  initproc : Slot
  panicked : Bool
  /-- the arguments with which `kill` has found a process -/
  kills : List Nat
  /-- the processes that `fork` has made, each with its maker -/
  born : List (Nat × Nat)
  exited : List Nat
  /-- the processes that `wait` has freed, each with the caller -/
  reaped : List (Nat × Nat)

namespace Table

def modify (k : Table) (p : Slot) (f : Proc → Proc) : Table := { k with proc := update k.proc p (f (k.proc p)) }

theorem modify_self (k : Table) (p : Slot) (f : Proc → Proc) : (k.modify p f).proc p = f (k.proc p) :=
  update_self ..

theorem modify_of_ne {p q : Slot} (h : q ≠ p) (k : Table) (f : Proc → Proc) : (k.modify p f).proc q = k.proc q :=
  update_of_ne h ..

/-- The first process of the table with `P`. -/
def find (k : Table) (P : Proc → Bool) : Option Slot := (List.finRange nProc).find? fun p => P (k.proc p)

def rouse (chan : Option Chan) (q : Proc) : Proc :=
  if q.state = .sleeping ∧ q.chan = chan then { q with state := .runnable } else q

def wakeup1 (k : Table) (chan : Option Chan) : Table := { k with proc := fun p => rouse chan (k.proc p) }

def ret (k : Table) (p : Slot) (r : Int) : Table := k.modify p fun q => { q with activity := .returning, eax := r }

/-! ### fork -/

/-- `fork` up to the end of `allocproc`'s work on the table. -/
def allocproc (k : Table) (p : Slot) : Table :=
  match k.find fun q => q.state = .unused with
  | none => k.ret p (-1)
  | some np =>
    ({ k with nextpid := k.nextpid + 1 }.modify np fun q => { q with state := .embryo, pid := k.nextpid }).modify p
      fun q => { q with activity := .fork np false }

/-- There is no page for the stack or for the copy of the memory. -/
def forkFail (k : Table) (p np : Slot) : Table := (k.ret p (-1)).modify np fun q => { q with state := .unused }

def forkCopy (k : Table) (p np : Slot) : Table :=
  (k.modify np fun q => { q with parent := some p, eax := 0 }).modify p
    fun q => { q with activity := .fork np true }

/-- The child goes on at `forkret`. -/
def forkFinish (k : Table) (p np : Slot) : Table :=
  { (k.ret p (k.proc np).pid).modify np fun q => { q with state := .runnable, activity := .user } with
    born := k.born ++ [((k.proc np).pid, (k.proc p).pid)] }

/-! ### exit -/

/-- `exit` up to the lock. -/
def exit (k : Table) (p : Slot) : Table :=
  if p = k.initproc then { k with panicked := true } else k.modify p fun q => { q with activity := .exit }

/-- One round of the loop of `exit`. -/
def passOn (p : Slot) (k : Table) (q : Slot) : Table :=
  if (k.proc q).parent = some p then
    let k := k.modify q fun r => { r with parent := some k.initproc }
    if (k.proc q).state = .zombie then k.wakeup1 (some (.proc k.initproc)) else k
  else k

/-- The rest of `exit`. -/
def leave (k : Table) (p : Slot) : Table :=
  let t := (List.finRange nProc).foldl (passOn p) (k.wakeup1 ((k.proc p).parent.map .proc))
  { t.modify p fun q => { q with state := .zombie } with exited := k.exited ++ [(k.proc p).pid] }

/-! ### wait -/

/-- The loop of `wait` over the table: `havekids`, and the first zombie child. -/
def waitLoop (k : Table) (p : Slot) : List Slot → Bool → Bool × Option Slot
  | [], havekids => (havekids, none)
  | q :: qs, havekids =>
    if (k.proc q).parent ≠ some p then waitLoop k p qs havekids
    else if (k.proc q).state = .zombie then (true, some q)
    else waitLoop k p qs true

def clear (q : Proc) : Proc := { q with pid := 0, parent := none, killed := false, state := .unused }

/-- `wait` has found the zombie `q`. -/
def reap (k : Table) (p q : Slot) : Table :=
  { (k.modify q clear).ret p (k.proc q).pid with reaped := k.reaped ++ [((k.proc q).pid, (k.proc p).pid)] }

/-- One round of the outer loop of `wait`. -/
def wait (k : Table) (p : Slot) : Table :=
  match k.waitLoop p (List.finRange nProc) false with
  | (_, some q) => k.reap p q
  | (havekids, none) =>
    if !havekids || (k.proc p).killed then k.ret p (-1)
    else k.modify p fun q => { q with activity := .wait, chan := some (.proc p), state := .sleeping }

def kill (k : Table) (p : Slot) (pid : Nat) : Table :=
  match k.find fun q => q.pid = pid with
  | none => k.ret p (-1)
  | some q =>
    { (k.modify q fun r =>
        { r with killed := true, state := if r.state = .sleeping then .runnable else r.state }).ret p 0 with
      kills := k.kills ++ [pid] }

/-- The scheduler switches to `p`; a process that has slept in `wait` looks at the table again. -/
def schedule (k : Table) (p : Slot) : Table :=
  let t := k.modify p fun q => { q with state := .running, chan := none }
  if (k.proc p).activity = .wait then t.wait p else t

end Table

inductive Event
  | schedule (p : Slot)
  | yield (p : Slot)
  /-- a trap from user mode: a system call, if the process has not been killed -/
  | trap (p : Slot)
  /-- the end of `trap` -/
  | back (p : Slot)
  | fork (p : Slot)
  | forkFail (p : Slot)
  | forkCopy (p : Slot)
  | forkFinish (p : Slot)
  | exit (p : Slot)
  | leave (p : Slot)
  | wait (p : Slot)
  | kill (p : Slot) (pid : Nat)
  /-- a fault of user code, or of another system call at a user address -/
  | fault (p : Slot)
  /-- a system call, `fork` or `exit` waits for something else -/
  | sleep (p : Slot) (n : Nat)
  | wakeup (n : Nat)
  deriving DecidableEq

namespace Table

/-- What a running process does in an event. -/
def act (k : Table) (p : Slot) (e : Event) : Option Table :=
  match e, (k.proc p).activity with
  | .yield _, _ => some (k.modify p fun q => { q with state := .runnable })
  | .trap _, .user =>
    some (if (k.proc p).killed then k.exit p else k.modify p fun q => { q with activity := .kernel })
  | .back _, .kernel | .back _, .returning =>
    some (if (k.proc p).killed then k.exit p else k.modify p fun q => { q with activity := .user })
  | .fault _, .user => some ((k.modify p fun q => { q with killed := true }).exit p)
  | .fault _, .kernel => some (k.modify p fun q => { q with killed := true, activity := .returning })
  | .fork _, .kernel => some (k.allocproc p)
  | .forkFail _, .fork np false => some (k.forkFail p np)
  | .forkCopy _, .fork np false => some (k.forkCopy p np)
  | .forkFinish _, .fork np true => some (k.forkFinish p np)
  | .exit _, .kernel => some (k.exit p)
  | .leave _, .exit => some (k.leave p)
  | .wait _, .kernel => some (k.wait p)
  | .kill _ pid, .kernel => some (k.kill p pid)
  | .sleep _ n, .kernel | .sleep _ n, .fork .. | .sleep _ n, .exit =>
    some (k.modify p fun q => { q with chan := some (.other n), state := .sleeping })
  | _, _ => none

def actor : Event → Option Slot
  | .schedule _ | .wakeup _ => none
  | .yield p | .trap p | .back p | .fork p | .forkFail p | .forkCopy p | .forkFinish p | .exit p | .leave p
  | .wait p | .kill p _ | .fault p | .sleep p _ => some p

/-- No step follows a panic. -/
def step (k : Table) (e : Event) : Option Table :=
  if k.panicked then none
  else match e with
    | .schedule p => if (k.proc p).state = .runnable then some (k.schedule p) else none
    | .wakeup n => some (k.wakeup1 (some (.other n)))
    | e => (actor e).bind fun p => if (k.proc p).state = .running then k.act p e else none

/-- The table after `userinit`. -/
def boot : Table where
  proc := fun p =>
    if p = ⟨0, by decide⟩ then
      { state := .runnable, pid := 1, parent := none, chan := none, killed := false, activity := .user, eax := 0 }
    else
      { state := .unused, pid := 0, parent := none, chan := none, killed := false, activity := .user, eax := 0 }
  nextpid := 2
  initproc := ⟨0, by decide⟩
  panicked := false
  kills := []
  born := []
  exited := []
  reaped := []

end Table

end Xv6.Family
