import AdvancedXv6.Jobs.State

/-! The functions of `proc.c` and the parts of `trap` and `sys_signal` that change processes. Each
is what happens between two points at which another process or an interrupt can come in. -/

namespace Xv6.Jobs

/-- `initial_priority - (ALPHA * cpu_ticks) + (BETA * wait_ticks)`, from exact rationals to an `int`. -/
def Proc.priority (p : Proc) : Int :=
  let x := (10 * p.initialPriority - 11 * p.cpuTicks + 10000001 * p.waitTicks).tdiv 10
  if -2 ^ 31 ≤ x ∧ x < 2 ^ 31 then x else -2 ^ 31

/-- `scheduler` passes the process over. -/
def Proc.Barred (p : Proc) : Prop := p.schedulingEnabled = 1 ∧ p.startLaterFlag = 1

instance (p : Proc) : Decidable p.Barred := inferInstanceAs (Decidable (_ ∧ _))

namespace Kernel

/-! ### Switching -/

/-- Up to the switch to the scheduler in `sched`; `p` goes on at `c`. -/
def sched (k : Kernel) (p : Slot) (c : Context) : Kernel :=
  { k.modify p fun q => { q with context := c } with
    cur := none
    prevProc := k.prevProc.filter fun j => (k.proc j).state ≠ .zombie }

/-- What `sched` does when the process `p` runs again. -/
def schedReturn (k : Kernel) (p : Slot) : Kernel :=
  let k := match k.prevProc with
    | none => k
    | some j =>
      if (k.proc j).pid ≠ (k.proc p).pid then
        k.modify j fun q => { q with contextSwitches := int (q.contextSwitches + 1) }
      else k
  { k with prevProc := some p }

def helper3 (p : Proc) : Proc := if p.dynPriority < 0 then { p with dynPriority := 0 } else p

def pick (ticks : Nat) (p : Proc) : Proc := { p with waitTicks := 0, lastScheduled := int ticks }

def helper4 (k : Kernel) (p : Slot) : Kernel := { k.modify p (pick k.ticks) with cur := some p }

/-- The first loop of `scheduler`. -/
def prioritise (k : Kernel) : Kernel :=
  k.each fun _ p => if p.state = .runnable then helper3 { p with dynPriority := p.priority } else p

/-- `p` can be selected. -/
def Selectable (k : Kernel) (p : Slot) : Prop :=
  (k.proc p).state = .runnable ∧ ¬(k.proc p).Barred

instance (k : Kernel) (p : Slot) : Decidable (k.Selectable p) := inferInstanceAs (Decidable (_ ∧ _))

/-- The body of the second loop of `scheduler`: the better one of `best` and `p`. -/
def better (k : Kernel) (best : Option Slot) (p : Slot) : Option Slot :=
  if k.Selectable p then
    match best with
    | none => some p
    | some h =>
      if (k.proc h).dynPriority < (k.proc p).dynPriority ∨
          (k.proc p).dynPriority = (k.proc h).dynPriority ∧ (k.proc p).pid < (k.proc h).pid then
        some p
      else some h
  else best

/-- The second loop of `scheduler`. -/
def highest (k : Kernel) : Option Slot := (List.finRange nProc).foldl k.better none

/-- `swtch` to the process `p`. -/
def swtch (k : Kernel) (p : Slot) : Kernel :=
  match (k.proc p).context with
  | .none | .exit => { k with panicked := true }
  | .forkret => k.modify p fun q => { q with context := .none }
  | .sleep => (k.schedReturn p).modify p fun q => { q with chan := none, context := .none }
  | .yield => k.schedReturn p
  | .yield2 => (k.schedReturn p).modify p fun q => { q with context := .none }

def setRunning (ticks : Nat) (p : Proc) : Proc :=
  { p with
    state := .running
    firstRunTime := if p.firstRunTime = -1 then int ticks else p.firstRunTime }

/-- One round of `scheduler`. -/
def scheduler (k : Kernel) : Kernel :=
  let k := k.prioritise
  match k.highest with
  | none => k
  | some p => ((k.helper4 p).modify p (setRunning k.ticks)).swtch p

def yield (k : Kernel) (p : Slot) : Kernel :=
  (k.modify p fun q => { q with state := .runnable }).sched p .yield

def sleep (k : Kernel) (p : Slot) (c : Chan) : Kernel :=
  (k.modify p fun q => { q with chan := some c, state := .sleeping }).sched p .sleep

def rouse (c : Option Chan) (p : Proc) : Proc :=
  if p.state = .sleeping ∧ p.chan = c then { p with state := .runnable } else p

def wakeup1 (k : Kernel) (c : Option Chan) : Kernel := k.each fun _ => rouse c

/-! ### fork and custom_fork -/

/-- `allocproc` up to the stack; `fork` or `custom_fork` of the process `p`. -/
def allocproc (k : Kernel) (p : Slot) (custom : Option (Int × Int)) : Kernel :=
  match k.find fun q => q.state = .unused with
  | none => k
  | some np =>
    ({ k with nextpid := k.nextpid + 1 }.modify np fun q =>
      { q with state := .embryo, pid := k.nextpid }).modify p fun q =>
        { q with activity := .fork np custom false }

/-- There is no page for the stack or for the copy of the memory. -/
def forkFail (k : Kernel) (p np : Slot) : Kernel :=
  (k.modify np fun q => { q with state := .unused }).modify p fun q => { q with activity := .none }

/-- What `fork` writes into the child before it locks the table. -/
def copyFlags : Option (Int × Int) → Proc → Proc
  | none, np => { np with startLaterFlag := 0, schedulingEnabled := 0, execTime := 2 ^ 32 - 1 }
  | some _, np => np

/-- The child has a stack and a copy of the memory and of the trap frame. -/
def forkCopy (k : Kernel) (p np : Slot) (custom : Option (Int × Int)) : Kernel :=
  (k.modify np fun q => copyFlags custom { q with
    context := .forkret
    activity := .none
    parent := some p
    tf := { (k.proc p).tf with eax := 0 } }).modify p fun q =>
      { q with activity := .fork np custom true }

def helper1 (ticks : Nat) (np : Proc) : Proc :=
  { np with
    state := .runnable
    creationTime := int ticks
    contextSwitches := 0
    firstRunTime := -1
    finishTime := 0
    rtime := 0
    initialPriority := initPriority
    cpuTicks := 0
    waitTicks := 0
    waitTicks2 := 0 }

def helper6 (ticks : Nat) (np : Proc) : Proc :=
  { np with
    schedulingEnabled := 1
    cpuTicks := 0
    creationTime := int ticks
    contextSwitches := 0
    firstRunTime := -1
    finishTime := 0
    rtime := 0
    initialPriority := initPriority
    waitTicks := 0
    waitTicks2 := 0
    lastScheduled := int ticks }

/-- What `fork` writes with the table locked. -/
def forkInit (ticks : Nat) (np : Proc) : Proc :=
  let np := helper1 ticks np
  { np with lastScheduled := int ticks, dynPriority := np.initialPriority }

/-- What `custom_fork` writes with the table locked. -/
def customForkInit (ticks : Nat) (flag e : Int) (np : Proc) : Proc :=
  let np := helper6 ticks { np with
    execTime := (e % 2 ^ 32).toNat
    startLaterFlag := flag
    state := if flag ≠ 0 then .sleeping else .runnable }
  { np with dynPriority := np.initialPriority }

def initChild (ticks : Nat) : Option (Int × Int) → Proc → Proc
  | none, np => forkInit ticks np
  | some (flag, e), np => customForkInit ticks flag e np

/-- The end of `fork` or `custom_fork`. -/
def forkFinish (k : Kernel) (p np : Slot) (custom : Option (Int × Int)) : Kernel :=
  (k.modify np (initChild k.ticks custom)).modify p fun q => { q with activity := .none }

def start (p : Proc) : Proc :=
  if p.startLaterFlag ≠ 0 ∧ p.state = .sleeping then
    { p with state := .runnable, schedulingEnabled := 0 }
  else p

def schedulerStartHandler (k : Kernel) : Kernel := k.each fun _ => start

/-! ### exit, wait and kill -/

/-- A child of `p` becomes a child of `init`. -/
def adopt (p init : Slot) (q : Proc) : Proc :=
  if q.parent = some p then { q with parent := some init } else q

/-- Children of `p` are passed to the first process, which is woken up if one has exited. -/
def passOn (k : Kernel) (p : Slot) : Kernel :=
  let t := k.each fun _ => adopt p k.initproc
  if ∃ i, (k.proc i).parent = some p ∧ (k.proc i).state = .zombie then
    t.wakeup1 (some (.proc k.initproc))
  else t

def stamp (ticks : Nat) (p : Proc) : Proc := { p with finishTime := int ticks }

/-- `exit` with the table locked. -/
def exit (k : Kernel) (p : Slot) : Kernel :=
  if p = k.initproc then { k with panicked := true }
  else
    let k := k.modify p (stamp k.ticks)
    let k := (k.wakeup1 ((k.proc p).parent.map .proc)).passOn p
    (k.modify p fun q => { q with state := .zombie }).sched p .exit

/-- `wait` with the table locked: returns a child that has exited, or -1, or sleeps. Suspended
children do not count. -/
def wait (k : Kernel) (p : Slot) : Kernel :=
  match k.find fun q => q.parent = some p ∧ q.state = .zombie with
  | some i =>
    (k.modify i fun q => { q with
      pid := 0, parent := none, killed := false, state := .unused, context := .none }).modify p
        fun q => { q with activity := .none }
  | none =>
    if (¬∃ i, (k.proc i).parent = some p ∧ (k.proc i).state ≠ .suspended) ∨ (k.proc p).killed then
      k.modify p fun q => { q with activity := .none }
    else (k.modify p fun q => { q with activity := .wait }).sleep p (.proc p)

def kill (k : Kernel) (pid : Int) : Kernel :=
  match k.find fun q => q.pid = pid with
  | none => k
  | some i => k.modify i fun q => { q with
      killed := true, state := if q.state = .sleeping then .runnable else q.state }

/-- The body of the loop in `kill_user_procs`. -/
def killUser (k : Kernel) (i : Slot) : Kernel :=
  if 2 < (k.proc i).pid ∧ (k.proc i).state ≠ .unused then
    let k := k.modify i fun q =>
      { q with state := if q.state = .suspended then .runnable else q.state }
    if (k.proc i).state ≠ .zombie then k.kill (k.proc i).pid else k
  else k

def killUserProcs (k : Kernel) : Kernel := (List.finRange nProc).foldl killUser k

/-! ### Suspending -/

/-- All processes are suspended but the first one and the shell. -/
def suspend (p : Proc) : Proc :=
  if p.pid ≠ 2 ∧ p.pid ≠ 1 ∧ p.pid ≠ 0 then { p with state := .suspended } else p

def wakeShell (p : Proc) : Proc :=
  if p.pid = 2 ∧ p.state = .sleeping then { p with state := .runnable } else p

def suspendUserProcs (k : Kernel) : Kernel := (k.each fun _ => suspend).each fun _ => wakeShell

def resume (p : Proc) : Proc := if p.state = .suspended then { p with state := .runnable } else p

def resumeUserProcs (k : Kernel) : Kernel := k.each fun _ => resume

/-- `helper5` up to `sched`. -/
def helper5 (p : Proc) : Proc := if p.state ≠ .suspended then { p with state := .runnable } else p

def yield2 (k : Kernel) (p : Slot) : Kernel := (k.suspendUserProcs.modify p helper5).sched p .yield2

/-- What `trap` does after `yield` returns. -/
def afterYield (k : Kernel) (p : Slot) : Kernel :=
  if (k.proc p).state = .running ∧ k.yieldOnTimer = 1 then { k with yieldOnTimer := 2 }.yield2 p
  else k.modify p fun q => { q with context := .none }

/-! ### The timer -/

/-- `ticks - last_ticks` -/
def elapsed (k : Kernel) : Int := (k.ticks : Int) - k.lastTicks

def helper7 (d : Int) (p : Proc) : Proc :=
  { p with waitTicks := int (p.waitTicks + d), waitTicks2 := int (p.waitTicks2 + d) }

def chargeWait (d : Int) (p : Proc) : Proc :=
  if p.state = .runnable then { helper7 d p with dynPriority := (helper7 d p).priority } else p

def chargeCpu (d : Int) (p : Proc) : Proc :=
  if p.state = .running then
    let p := { p with cpuTicks := int (p.cpuTicks + d) }
    if 1 < p.pid ∧ p.execTime ≠ 2 ^ 32 - 1 ∧ p.execTime ≤ (p.cpuTicks % 2 ^ 32).toNat then
      { p with killed := true }
    else p
  else p

def updateTimes (k : Kernel) : Kernel :=
  let t := k.each fun _ => chargeWait k.elapsed
  let t := match k.cur with
    | none => t
    | some p => t.modify p (chargeCpu k.elapsed)
  { t with lastTicks := if k.lastTicks < k.ticks then k.ticks else k.lastTicks }

/-- What `trap` does before it looks at the running process again. -/
def tick (k : Kernel) : Kernel :=
  let k := k.updateTimes
  { k with ticks := (k.ticks + 1) % 2 ^ 32 }.wakeup1 (some .ticks)

/-- `trap` for a timer interrupt, up to the switch in `yield`; `user` says what it came in. -/
def timer (k : Kernel) (user : Bool) : Kernel :=
  let k := k.tick
  match k.cur with
  | none => k
  | some p =>
    if (k.proc p).killed ∧ user then k.modify p fun q => { q with activity := .exit }
    else if (k.proc p).state = .running then k.yield p
    else k

/-! ### Signals -/

/-- Ctrl-G -/
def ctrlG (k : Kernel) : Kernel :=
  match k.cur with
  | none => k
  | some p => if (k.proc p).customHandler ≠ 0 then
      k.modify p fun q => { q with pendingCustom := true } else k

/-- The process and the trap frame afterwards; `page` says that there is one for `tf1`, if needed. -/
def handlePendingCustomSignal (page : Bool) (p : Proc) (tf : Frame) : Proc × Frame :=
  if p.pendingCustom ∧ p.customHandler ≠ 0 then
    ({ p with
        pendingCustom := false
        tf1 := if p.tf1.isSome ∨ page then some tf else none
        prevEip := tf.eip },
      { tf with eip := p.customHandler })
  else (p, tf)

/-- The end of `trap`. -/
def trapEnd (page : Bool) (p : Proc) (tf : Frame) : Proc × Frame :=
  if p.pendingCustom ∧ p.customHandler ≠ 0 ∧ ¬p.killed then handlePendingCustomSignal page p tf
  else (p, tf)

/-- The end of a trap that came in user mode: the frame is the process's own. -/
def userTrapEnd (page : Bool) (p : Proc) : Proc :=
  { (trapEnd page p p.tf).1 with tf := (trapEnd page p p.tf).2 }

/-- A page fault or a general protection fault of a process that is not killed; `low` is what the
memory holds at address 0. -/
def fault (low : Frame) (p : Proc) : Proc := { p with tf := p.tf1.getD low }

end Kernel

end Xv6.Jobs
