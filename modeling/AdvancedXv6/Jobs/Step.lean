import AdvancedXv6.Jobs.Proc
import AdvancedXv6.Lib.Run

/-! The steps of the system: system calls of the running process, interrupts, the keys and the
scheduler, in any order in which one processor can take them. -/

namespace Xv6.Jobs

inductive Event
  /-- `fork`, or `custom_fork` with its arguments, up to the end of `allocproc` -/
  | fork (custom : Option (Int × Int))
  | forkFail
  | forkCopy
  | forkFinish
  | exit
  | wait
  | kill (pid : Int)
  | schedulerStart
  | exec (eip esp : Nat)
  | signal (handler : Nat)
  /-- any `sleep` but the one in `wait` -/
  | sleep (c : Chan)
  /-- a trap from user mode -/
  | enter (tf : Frame)
  /-- the end of a trap other than a system call; with the frame if it came in kernel mode -/
  | trapEnd (page : Bool) (kernel : Option Frame)
  /-- a page fault or general protection fault -/
  | fault (low : Frame)
  | wakeup (c : Chan)
  | ctrlB
  | ctrlC
  | ctrlF
  | ctrlG
  | timer (user : Bool)
  /-- the rest of `trap` after `yield` -/
  | afterYield
  /-- one round of `scheduler` -/
  | scheduler
  deriving DecidableEq

namespace Kernel

/-- The running process is in `trap` after `yield`, with interrupts off. -/
def busy (k : Kernel) : Bool := k.cur.any fun p => (k.proc p).context = .yield

/-- The running process starts a system call; a killed process exits instead. -/
def call (k : Kernel) (f : Slot → Kernel) : Option Kernel :=
  k.cur.bind fun p =>
    if (k.proc p).activity = .none ∧ ¬(k.proc p).killed then some (f p) else none

/-- The running process goes on with one of the activities in `as`. -/
def goOn (k : Kernel) (as : List Activity) (f : Slot → Kernel) : Option Kernel :=
  k.cur.bind fun p => if (k.proc p).activity ∈ as then some (f p) else none

/-- The running process goes on with `fork`. -/
def goOnFork (k : Kernel) (copied : Bool) (f : Slot → Slot → Option (Int × Int) → Kernel) :
    Option Kernel :=
  k.cur.bind fun p => match (k.proc p).activity with
    | .fork np custom c => if c = copied then some (f p np custom) else none
    | _ => none

def perform (k : Kernel) : Event → Option Kernel
  | .fork custom => k.call fun p => k.allocproc p custom
  | .forkFail => k.goOnFork false fun p np _ => k.forkFail p np
  | .forkCopy => k.goOnFork false fun p np custom => k.forkCopy p np custom
  | .forkFinish => k.goOnFork true fun p np custom => k.forkFinish p np custom
  | .exit => k.goOn [.none, .exit] k.exit
  | .wait => k.goOn [.none, .wait] k.wait
  | .kill pid => k.call fun _ => k.kill pid
  | .schedulerStart => k.call fun _ => k.schedulerStartHandler
  | .exec eip esp => k.call fun p => k.modify p fun q => { q with tf := { q.tf with eip, esp } }
  | .signal handler => k.call fun p => k.modify p fun q => { q with customHandler := handler }
  | .sleep c => k.goOn [.none, .exit] fun p => k.sleep p c
  | .enter tf =>
    if tf.User then k.goOn [.none] fun p => k.modify p fun q => { q with tf } else none
  | .trapEnd page none => k.goOn [.none] fun p => k.modify p (userTrapEnd page)
  | .trapEnd page (some tf) =>
    if tf.cs % 4 = 0 then k.cur.map fun p => k.modify p fun q => (trapEnd page q tf).1 else none
  | .fault low => k.cur.bind fun p => if (k.proc p).killed then none else some (k.modify p (fault low))
  | .wakeup c => some (k.wakeup1 (some c))
  | .ctrlB => some { k with yieldOnTimer := 1 }
  | .ctrlC => some k.killUserProcs
  | .ctrlF => some k.resumeUserProcs
  | .ctrlG => some k.ctrlG
  | .timer user =>
    if k.cur.all fun p => user = false ∨ (k.proc p).activity = .none then some (k.timer user) else none
  | .afterYield => k.cur.map k.afterYield
  | .scheduler => if k.cur = none then some k.scheduler else none

def step (k : Kernel) (e : Event) : Option Kernel :=
  if k.panicked = false ∧ k.busy = decide (e = .afterYield) then k.perform e else none

/-- The frame that `userinit` makes. -/
def initFrame : Frame :=
  ⟨0, 0, 0, 0, 0, 0, 0, 0, 0, 0, 35, 35, 0, 0, 0, 27, 512, 4096, 35⟩

def unusedProc : Proc :=
  ⟨.unused, 0, none, ⟨0, 0, 0, 0, 0, 0, 0, 0, 0, 0, 0, 0, 0, 0, 0, 0, 0, 0, 0⟩, none, .none, .none,
    none, false, 0, false, 0, 0, 0, 0, 0, 0, 0, 0, 0, 0, 0, 0, 0, 0, 0⟩

/-- The first process is there and nothing has run yet. -/
def boot : Kernel where
  proc := fun i => if i.val = 0 then
    { unusedProc with state := .runnable, pid := 1, tf := initFrame, context := .forkret }
    else unusedProc
  cur := none
  nextpid := 2
  initproc := ⟨0, by decide⟩
  ticks := 0
  lastTicks := 0
  yieldOnTimer := 0
  prevProc := none
  panicked := false

/-- The kernel in which the system can be. -/
def Reachable (k : Kernel) : Prop := Run.Reaches step boot k

end Kernel

end Xv6.Jobs
