import AdvancedXv6.Lib.Run
import Mathlib.Data.List.FinRange
import Mathlib.Logic.Function.Basic

/-! Spinlocks, sleep locks and the switches between processes, on any number of CPUs: `spinlock.c`,
`sleeplock.c`, and what `proc.c` and `trap.c` do under them. A thread is the list of what it has still
to do, and a step is one access to the shared state. -/

namespace Xv6.Locks
open Function

def nProc : Nat := 64

abbrev Slot := Fin nProc

inductive ProcState
  | unused | embryo | sleeping | runnable | running | zombie
  deriving DecidableEq

/-- The spinlocks; `lk i` is the one inside the sleep lock `i`. -/
inductive Lock
  | ptable | kmem | tickslock | idelock | cons | log | bcache | icache | ftable
  | pipe (p : Nat)
  | lk (i : Nat)
  deriving DecidableEq

/-- The addresses that processes sleep on. -/
inductive Chan
  | ticks | log | input
  | buf (b : Nat)
  | nread (p : Nat)
  | nwrite (p : Nat)
  | proc (q : Slot)
  | sleeplock (i : Nat)
  deriving DecidableEq

structure Spinlock (C : Type) where
  locked : Bool
  cpu : Option C

structure Sleeplock where
  locked : Bool
  pid : Nat
  deriving DecidableEq

inductive Panic
  | acquire
  | release
  | popcliInterruptible
  | popcli
  | mycpu
  | schedPtable
  | schedLocks
  | schedRunning
  | schedInterruptible
  | zombieExit
  | initExiting
  /-- `iderw`, `bwrite`, `brelse` or `iunlock` of a sleep lock that the caller does not hold -/
  | notHeld
  /-- the scheduler's thread does what only a process can do -/
  | trap
  deriving DecidableEq

/-- What a thread does next. -/
inductive Instr
  | pushcli
  | popcli
  | sti
  /-- `if(holding(lk)) panic("acquire")` -/
  | checkFree (l : Lock)
  /-- `while(xchg(&lk->locked, 1) != 0)` -/
  | xchg (l : Lock)
  /-- `lk->cpu = mycpu()` -/
  | setCpu (l : Lock)
  /-- `if(!holding(lk)) panic("release")` -/
  | checkHeld (l : Lock)
  /-- `lk->cpu = 0` -/
  | clearCpu (l : Lock)
  /-- `lk->locked = 0` -/
  | clear (l : Lock)
  /-- `while(lk->locked) sleep(lk, &lk->lk)` -/
  | await (i : Nat)
  /-- `lk->locked = 1; lk->pid = myproc()->pid` -/
  | take (i : Nat)
  /-- `r = lk->locked && (lk->pid == myproc()->pid)`, for a caller that panics unless `r` -/
  | readHeld (i : Nat)
  /-- `lk->locked = 0; lk->pid = 0` -/
  | drop (i : Nat)
  | wakeup1 (ch : Chan)
  /-- the loop of `kill` -/
  | killLoop (pid : Nat)
  /-- `p->state = RUNNABLE` of `yield` -/
  | stand
  /-- `p->chan = chan; p->state = SLEEPING` -/
  | doze (ch : Chan)
  /-- `p->chan = 0` -/
  | tidy
  /-- the end of `exit`, from `wakeup1(curproc->parent)` to `curproc->state = ZOMBIE` -/
  | leave
  | sched
  /-- `mycpu()->intena = intena`, when `swtch` comes back to `sched` -/
  | restore (intena : Bool)
  /-- the loop of `allocproc`; `ok` says whether the rest of `fork` has the memory that it needs -/
  | alloc (ok : Bool)
  /-- `np->state = RUNNABLE` -/
  | ready (q : Slot)
  /-- `np->state = UNUSED` -/
  | abandon (q : Slot)
  /-- the loop of `wait` -/
  | scan
  /-- the calls of `kfree` in `wait` -/
  | freeing
  /-- one round of the scheduler's loop over the table -/
  | tryRun (q : Slot)
  /-- the `for(;;)` of the scheduler -/
  | forever
  /-- `if(curproc == initproc) panic("init exiting")` -/
  | checkInit
  /-- `panic("zombie exit")` -/
  | zombieExit
  /-- the caller of `holdingsleep` panics -/
  | notHeld
  /-- `if(myproc()->killed) exit()` -/
  | exitIfKilled
  /-- `if(myproc() && myproc()->state == RUNNING) yield()` -/
  | yieldIfRunning
  /-- a point where the kernel calls other routines, any number of times -/
  | busy
  /-- back to user space, with interrupts on -/
  | trapret
  /-- back from an interrupt, with interrupts on -/
  | iret
  deriving DecidableEq

abbrev Code := List Instr

structure Cpu where
  ncli : Nat
  intena : Bool
  /-- `FL_IF` -/
  iflag : Bool
  /-- the process that runs; `none` for the scheduler -/
  proc : Option Slot
  /-- what the scheduler has still to do -/
  sched : Code

structure Proc where
  state : ProcState
  pid : Nat
  parent : Option Slot
  chan : Option Chan
  killed : Bool
  /-- what the process has still to do in the kernel; nothing when it is in user space -/
  code : Code

structure Sys (C : Type) where
  lock : Lock → Spinlock C
  sleep : Nat → Sleeplock
  cpu : C → Cpu
  proc : Slot → Proc
  nextpid : Nat
  initproc : Slot
  panic : Option Panic

/-! ### The routines -/

def acquire (l : Lock) : Code := [.pushcli, .checkFree l, .xchg l, .setCpu l]

def release (l : Lock) : Code := [.checkHeld l, .clearCpu l, .clear l, .popcli]

def wakeup (ch : Chan) : Code := acquire .ptable ++ .wakeup1 ch :: release .ptable

/-- `sleep` for a lock other than `ptable.lock`. -/
def sleep (ch : Chan) (l : Lock) : Code :=
  acquire .ptable ++ release l ++ [.doze ch, .sched, .tidy] ++ release .ptable ++ acquire l

def yield : Code := acquire .ptable ++ [.stand, .sched] ++ release .ptable

def acquiresleep (i : Nat) : Code := acquire (.lk i) ++ [.await i, .take i] ++ release (.lk i)

def releasesleep (i : Nat) : Code := acquire (.lk i) ++ .drop i :: wakeup (.sleeplock i) ++ release (.lk i)

/-- `holdingsleep`, for a caller that panics when it says no. -/
def holdingsleep (i : Nat) : Code := acquire (.lk i) ++ .readHeld i :: release (.lk i)

/-- A lock is taken, and let go after something that needs no other lock. -/
def critical (l : Lock) : Code := acquire l ++ release l

/-- `exit`; the files are closed before `ptable.lock` is taken. -/
def exit : Code := [.checkInit, .busy] ++ acquire .ptable ++ [.leave, .sched, .zombieExit]

def scheduler : Code :=
  .sti :: acquire .ptable ++ (List.finRange nProc).map .tryRun ++ release .ptable ++ [.forever]

def forkret : Code := release .ptable ++ [.trapret]

/-- What the kernel can call with no spinlock held. A number says how often a loop goes to sleep. -/
inductive Routine
  /-- also `switchuvm` -/
  | myproc
  /-- `kfree` and `get_free_pages` too -/
  | kalloc
  /-- `filedup` and `fileclose` too -/
  | filealloc
  /-- `idup` too -/
  | iget
  | logWrite
  | uptime
  /-- `consolewrite` too -/
  | cprintf
  | swapOutOnePage
  | sysSleep (n : Nat)
  | beginOp (n : Nat)
  | endOp (last : Bool)
  | bget (b : Nat)
  | bwrite (b : Nat)
  | iderw (b n : Nat)
  | brelse (b : Nat)
  | ilock (i : Nat)
  | iunlock (i : Nat)
  | iput (i : Nat) (valid : Bool)
  | pipeclose (p : Nat) (writable : Bool)
  | pipewrite (p n : Nat)
  | piperead (p n : Nat)
  | consoleread (n : Nat)
  | fork (ok : Bool)
  | exit
  | wait
  | kill (pid : Nat)

/-- The code is done `n` times. -/
def repeats (n : Nat) (code : Code) : Code := (List.replicate n code).flatten

def Routine.code : Routine → Code
  | .myproc => [.pushcli, .popcli]
  | .kalloc => critical .kmem
  | .filealloc => critical .ftable
  | .iget => critical .icache
  | .logWrite => critical .log
  | .uptime => critical .tickslock
  | .cprintf => critical .cons
  | .swapOutOnePage => critical .ptable
  | .sysSleep n => acquire .tickslock ++ repeats n (sleep .ticks .tickslock) ++ release .tickslock
  | .beginOp n => acquire .log ++ repeats n (sleep .log .log) ++ release .log
  | .endOp last =>
    if last then critical .log ++ .busy :: acquire .log ++ wakeup .log ++ release .log
    else acquire .log ++ wakeup .log ++ release .log
  | .bget b => critical .bcache ++ acquiresleep b
  | .bwrite b => holdingsleep b
  | .iderw b n => holdingsleep b ++ acquire .idelock ++ repeats n (sleep (.buf b) .idelock) ++ release .idelock
  | .brelse b => holdingsleep b ++ releasesleep b ++ critical .bcache
  | .ilock i => acquiresleep i
  | .iunlock i => holdingsleep i ++ releasesleep i
  | .iput i valid =>
    -- the inode is freed between the locks
    acquire (.lk i) ++ [.await i, .take i] ++ release (.lk i) ++
      (if valid then critical .icache ++ [.busy] else []) ++ releasesleep i ++ critical .icache
  | .pipeclose p writable =>
    acquire (.pipe p) ++ wakeup (if writable then .nread p else .nwrite p) ++ release (.pipe p)
  | .pipewrite p n =>
    acquire (.pipe p) ++ repeats n (wakeup (.nread p) ++ sleep (.nwrite p) (.pipe p)) ++ wakeup (.nread p) ++
      release (.pipe p)
  | .piperead p n =>
    acquire (.pipe p) ++ repeats n (sleep (.nread p) (.pipe p)) ++ wakeup (.nwrite p) ++ release (.pipe p)
  | .consoleread n => acquire .cons ++ repeats n (sleep .input .cons) ++ release .cons
  | .fork ok => acquire .ptable ++ [.alloc ok]
  | .exit => Locks.exit
  | .wait => acquire .ptable ++ [.scan]
  | .kill pid => acquire .ptable ++ .killLoop pid :: release .ptable

-- the equations of `Routine.code` are made here, once for all proofs
section
attribute [local simp] Routine.code
end

/-- The sleep locks that a routine lets go. -/
def Routine.unlocks : Routine → List Nat
  | .brelse b => [b]
  | .iunlock i | .iput i _ => [i]
  | _ => []

inductive Irq
  /-- `tick` for the CPU that counts the ticks -/
  | timer (tick : Bool)
  /-- the buffer whose request is done, if any -/
  | ide (b : Option Nat)
  /-- `consoleintr` with `n` ends of lines, and what it calls afterwards: `procdump`, which prints `lines`
  times, and `pagecount`, which prints `counts` times -/
  | console (n lines : Nat) (counts : Option Nat)
  | spurious

/-- The lines are printed under `ptable.lock`. -/
def pagecount (n : Nat) : Code := acquire .ptable ++ repeats n (critical .cons) ++ release .ptable

/-- The case of `trap` for an interrupt. -/
def Irq.code : Irq → Code
  | .timer tick => if tick then acquire .tickslock ++ wakeup .ticks ++ release .tickslock else []
  | .ide none => critical .idelock
  | .ide (some b) => acquire .idelock ++ wakeup (.buf b) ++ release .idelock
  | .console n lines counts =>
    acquire .cons ++ repeats n (wakeup .input) ++ release .cons ++ repeats lines (critical .cons) ++
      (match counts with | some n => pagecount n | none => [])
  | .spurious => critical .cons

/-- The end of `trap`, for a trap out of user space or not. -/
def Irq.tail (user : Bool) : Irq → Code
  | .timer _ => if user then [.exitIfKilled, .yieldIfRunning, .exitIfKilled, .iret] else [.yieldIfRunning, .iret]
  | _ => if user then [.exitIfKilled, .exitIfKilled, .iret] else [.iret]

/-- `trap` for a system call. -/
def syscall : Code := [.exitIfKilled, .busy, .exitIfKilled, .trapret]

/-! ### One step of a thread -/

namespace Sys
variable {C : Type} [DecidableEq C]

def fail (s : Sys C) (p : Panic) : Sys C := { s with panic := some p }

def setLock (s : Sys C) (l : Lock) (x : Spinlock C) : Sys C := { s with lock := update s.lock l x }

def setSleep (s : Sys C) (i : Nat) (x : Sleeplock) : Sys C := { s with sleep := update s.sleep i x }

def setCpu (s : Sys C) (c : C) (x : Cpu) : Sys C := { s with cpu := update s.cpu c x }

def setProc (s : Sys C) (q : Slot) (x : Proc) : Sys C := { s with proc := update s.proc q x }

/-- What the thread that runs on `c` has still to do. -/
def code (s : Sys C) (c : C) : Code :=
  match (s.cpu c).proc with
  | some q => (s.proc q).code
  | none => (s.cpu c).sched

/-- The thread that runs on `c` goes on with `code`. -/
def goto (s : Sys C) (c : C) (code : Code) : Sys C :=
  match (s.cpu c).proc with
  | some q => s.setProc q { s.proc q with code := code }
  | none => s.setCpu c { s.cpu c with sched := code }

def holding (s : Sys C) (c : C) (l : Lock) : Prop := (s.lock l).locked = true ∧ (s.lock l).cpu = some c

instance (s : Sys C) (c : C) (l : Lock) : Decidable (s.holding c l) := inferInstanceAs (Decidable (_ ∧ _))

/-- `f` with `myproc()`. -/
def withProc (s : Sys C) (c : C) (f : Slot → Sys C) : Sys C :=
  match (s.cpu c).proc with
  | some q => f q
  | none => s.fail .trap

/-- The sleeping processes with `P` can run again. -/
def rouse (s : Sys C) (P : Proc → Bool) : Sys C :=
  { s with proc := fun q =>
      if (s.proc q).state = .sleeping ∧ P (s.proc q) then { s.proc q with state := .runnable } else s.proc q }

/-- The first slot with `P`. -/
def find (s : Sys C) (P : Proc → Bool) : Option Slot := (List.finRange nProc).find? fun q => P (s.proc q)

def setState (s : Sys C) (q : Slot) (state : ProcState) : Sys C := s.setProc q { s.proc q with state := state }

/-- The end of `exit`: the parent is woken, the children go to `initproc`, which is woken if one of them has
exited before. -/
def leave (s : Sys C) (q : Slot) : Sys C :=
  let s₁ := s.rouse fun p => p.chan = (s.proc q).parent.map Chan.proc
  let adopt (p : Proc) : Proc := if p.parent = some q then { p with parent := some s.initproc } else p
  let s₂ := { s₁ with proc := fun r => adopt (s₁.proc r) }
  let s₃ := match s.find fun p => p.parent = some q && p.state = .zombie with
    | some _ => s₂.rouse fun p => p.chan = some (Chan.proc s.initproc)
    | none => s₂
  s₃.setState q .zombie

/-- The loop of `allocproc`, with the rest of `fork`. -/
def alloc (s : Sys C) (c : C) (q : Slot) (ok : Bool) (rest : Code) : Sys C :=
  match s.find fun p => p.state = .unused with
  | none => s.goto c (release .ptable ++ rest)
  | some r =>
    let t := s.goto c (release .ptable ++ .busy ::
      (if ok then acquire .ptable ++ .ready r :: release .ptable else [.abandon r]) ++ rest)
    { t.setProc r { s.proc r with state := .embryo, pid := s.nextpid, parent := if ok then some q else (s.proc r).parent }
      with nextpid := s.nextpid + 1 }

/-- The loop of `wait`; the memory of the child is freed while no one else reads the table. -/
def scan (s : Sys C) (c : C) (q : Slot) (rest : Code) : Sys C :=
  match s.find fun p => p.parent = some q && p.state = .zombie with
  | some r =>
    (s.goto c (.freeing :: release .ptable ++ rest)).setProc r
      { s.proc r with state := .unused, pid := 0, parent := none, killed := false }
  | none =>
    if (s.find fun p => p.parent = some q).isNone ∨ (s.proc q).killed then s.goto c (release .ptable ++ rest)
    else s.goto c ([.doze (.proc q), .sched, .tidy, .scan] ++ rest)

/-- `sched` up to the switch to the scheduler. -/
def sched (s : Sys C) (c : C) (q : Slot) (rest : Code) : Sys C :=
  let u := s.cpu c
  if ¬s.holding c .ptable then s.fail .schedPtable
  else if u.iflag then s.fail .mycpu
  else if u.ncli ≠ 1 then s.fail .schedLocks
  else if (s.proc q).state = .running then s.fail .schedRunning
  else (s.setProc q { s.proc q with code := .restore u.intena :: rest }).setCpu c { u with proc := none }

/-- The thread on `c` does `i`, with `rest` to do after it. -/
def instr (s : Sys C) (c : C) (rest : Code) : Instr → Sys C
  | .pushcli =>
    let t := s.goto c rest
    let u := t.cpu c
    t.setCpu c { u with ncli := u.ncli + 1, intena := if u.ncli = 0 then u.iflag else u.intena, iflag := false }
  | .popcli =>
    let t := s.goto c rest
    let u := t.cpu c
    if u.iflag then s.fail .popcliInterruptible
    else if u.ncli = 0 then s.fail .popcli
    else t.setCpu c { u with ncli := u.ncli - 1, iflag := u.ncli = 1 && u.intena }
  | .sti =>
    let t := s.goto c rest
    t.setCpu c { t.cpu c with iflag := true }
  | .checkFree l => if s.holding c l then s.fail .acquire else s.goto c rest
  | .xchg l => if (s.lock l).locked then s else (s.goto c rest).setLock l { s.lock l with locked := true }
  | .setCpu l =>
    if (s.cpu c).iflag then s.fail .mycpu else (s.goto c rest).setLock l { s.lock l with cpu := some c }
  | .checkHeld l => if s.holding c l then s.goto c rest else s.fail .release
  | .clearCpu l => (s.goto c rest).setLock l { s.lock l with cpu := none }
  | .clear l => (s.goto c rest).setLock l { s.lock l with locked := false }
  | .await i =>
    if (s.sleep i).locked then s.goto c (Locks.sleep (.sleeplock i) (.lk i) ++ .await i :: rest) else s.goto c rest
  | .take i => s.withProc c fun q => (s.goto c rest).setSleep i ⟨true, (s.proc q).pid⟩
  | .readHeld i => s.withProc c fun q =>
    if (s.sleep i).locked ∧ (s.sleep i).pid = (s.proc q).pid then s.goto c rest
    else s.goto c (release (.lk i) ++ [.notHeld])
  | .drop i => (s.goto c rest).setSleep i ⟨false, 0⟩
  | .wakeup1 ch => (s.goto c rest).rouse fun p => p.chan = some ch
  | .killLoop pid =>
    let t := s.goto c rest
    match t.find fun p => p.pid = pid with
    | some q =>
      let p := t.proc q
      t.setProc q { p with killed := true, state := if p.state = .sleeping then .runnable else p.state }
    | none => t
  | .stand => s.withProc c fun q => (s.goto c rest).setState q .runnable
  | .doze ch => s.withProc c fun q =>
    let t := s.goto c rest
    t.setProc q { t.proc q with chan := some ch, state := .sleeping }
  | .tidy => s.withProc c fun q =>
    let t := s.goto c rest
    t.setProc q { t.proc q with chan := none }
  | .leave => s.withProc c fun q => (s.goto c rest).leave q
  | .sched => s.withProc c fun q => s.sched c q rest
  | .restore intena =>
    let t := s.goto c rest
    t.setCpu c { t.cpu c with intena := intena }
  | .alloc ok => s.withProc c fun q => s.alloc c q ok rest
  | .ready r => (s.goto c rest).setProc r { s.proc r with state := .runnable, code := forkret }
  | .abandon r => (s.goto c rest).setState r .unused
  | .scan => s.withProc c fun q => s.scan c q rest
  | .freeing => s.goto c rest
  | .tryRun q =>
    let t := s.goto c rest
    if (s.proc q).state = .runnable then (t.setState q .running).setCpu c { t.cpu c with proc := some q } else t
  | .forever => s.goto c scheduler
  | .checkInit => s.withProc c fun q => if q = s.initproc then s.fail .initExiting else s.goto c rest
  | .zombieExit => s.fail .zombieExit
  | .notHeld => s.fail .notHeld
  | .exitIfKilled => s.withProc c fun q => s.goto c (if (s.proc q).killed then Locks.exit else rest)
  | .yieldIfRunning =>
    match (s.cpu c).proc with
    | some q => s.goto c (if (s.proc q).state = .running then Locks.yield ++ rest else rest)
    | none => s.goto c rest
  | .busy => s.goto c rest
  | .trapret | .iret =>
    let t := s.goto c rest
    t.setCpu c { t.cpu c with iflag := true }

-- the equations of `instr` are made here, once for all proofs
section
attribute [local simp] instr
end

end Sys

/-! ### The system -/

inductive Event (C : Type)
  /-- the thread on a CPU goes on -/
  | exec (c : C)
  | interrupt (c : C) (irq : Irq)
  /-- the process on a CPU makes a system call -/
  | syscall (c : C)
  /-- the process calls a routine, at a point where the kernel does -/
  | call (c : C) (r : Routine)
  /-- `wait` frees a page of the child -/
  | kfree (c : C)

/-- The CPU that makes the step. -/
def Event.cpu {C : Type} : Event C → C
  | .exec c | .interrupt c _ | .syscall c | .call c _ | .kfree c => c

namespace Sys
variable {C : Type} [DecidableEq C]

/-- A routine does not let a sleep lock go that the code around the call has still to let go. -/
def step (s : Sys C) (e : Event C) : Option (Sys C) :=
  if s.panic.isSome then none
  else match e with
  | .exec c =>
    match s.code c with
    | i :: rest => some (s.instr c rest i)
    | [] => none
  | .interrupt c irq =>
    if (s.cpu c).iflag then
      let user := (s.cpu c).proc.isSome && (s.code c).isEmpty
      let t := s.goto c (irq.code ++ irq.tail user ++ s.code c)
      some (t.setCpu c { t.cpu c with iflag := false })
    else none
  | .syscall c => if (s.cpu c).proc.isSome ∧ s.code c = [] then some (s.goto c Locks.syscall) else none
  | .call c r =>
    match s.code c with
    | .busy :: rest =>
      if ∀ i ∈ r.unlocks, .drop i ∉ rest then some (s.goto c (r.code ++ .busy :: rest)) else none
    | _ => none
  | .kfree c =>
    match s.code c with
    | .freeing :: rest => some (s.goto c (critical .kmem ++ .freeing :: rest))
    | _ => none

/-- The CPUs come to `scheduler`; the first process is to recover the log in `forkret`. -/
def boot (initproc : Slot) : Sys C where
  lock := fun _ => ⟨false, none⟩
  sleep := fun _ => ⟨false, 0⟩
  cpu := fun _ => ⟨0, false, false, none, scheduler⟩
  proc := update (fun _ => ⟨.unused, 0, none, none, false, []⟩) initproc
    ⟨.runnable, 1, none, none, false, release .ptable ++ [.busy, .trapret]⟩
  nextpid := 2
  initproc := initproc
  panic := none

end Sys

end Xv6.Locks
