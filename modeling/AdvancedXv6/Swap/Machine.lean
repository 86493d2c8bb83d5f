import AdvancedXv6.Lib.Run
import AdvancedXv6.Swap.Boot
import AdvancedXv6.Swap.Flat

/-! Runs of the kernel from power on, with user code between the traps; and runs of the machine on which
each process has a flat memory. -/

namespace Xv6.Swap
open Function Effect

/-- What happens next. User code and the kernel on its behalf act for the process that runs. -/
inductive Op
  | load (va : Nat)
  | store (va : Nat) (b : BitVec 8)
  /-- a system call reads or writes `n` bytes of the process's memory -/
  | access (va n : Nat)
  | pageFault (va : Nat) (user : Bool)
  | sbrk (n : Int)
  | fork
  | exec (phs : Option (List Segment)) (path : UserString) (argv : List UserString)
  | exit
  | wait
  | pipe
  | close (f : Nat)
  | kill (pid : Nat)
  | wakeup (chan : Nat → Bool)
  | sched (s : ProcState)
  | dispatch (q : Nat)
  | evict

inductive Reply
  | done
  | fault
  | exited
  | byte (b : BitVec 8)
  | int (n : Int)
  | child (i : Option Nat)

def Reply.ofLoad : Option (BitVec 8) → Reply
  | some b => .byte b
  | none => .fault

def Op.run (im : Image) : Op → Kern Reply
  | .load va => Reply.ofLoad <$> userLoad va
  | .store va b => (fun r => if r then .done else .fault) <$> userStore va b
  | .access va n => (fun _ => .done) <$> touchRange im va n
  | .pageFault va user => (fun r => if r then .done else .exited) <$> trapPgflt im va user
  | .sbrk n => Reply.int <$> growproc im n
  | .fork => Reply.int <$> Swap.fork im
  | .exec phs path argv => Reply.int <$> Swap.exec im phs path argv
  | .exit => (fun _ => .exited) <$> Swap.exit
  | .wait => Reply.child <$> Swap.wait im
  | .pipe => Reply.int <$> pipealloc im
  | .close f => (fun _ => .done) <$> pipeclose im f
  | .kill pid => Reply.int <$> Swap.kill pid
  | .wakeup chan => (fun _ => .done) <$> Swap.wakeup chan
  | .sched s => (fun _ => .done) <$> Swap.sched s
  | .dispatch q => (fun _ => .done) <$> Swap.dispatch q
  | .evict => (fun _ => .done) <$> swapOutOnePage im

-- the equations of `Op.run` are made here, once for all proofs
section
attribute [local simp] Op.run
end

/-- Where the code can be reached. -/
def Op.Enabled (k : Kernel) : Op → Prop
  | .load va | .store va _ | .pageFault va _ => k.cur.isSome ∧ va < 2 ^ 32
  | .access va n => k.cur.isSome ∧ va + n ≤ kernBase
  | .close f => k.cur.isSome ∧ f ∈ k.pipes
  | .sched s => k.cur.isSome ∧ (s = .runnable ∨ s = .sleeping)
  | .dispatch q => k.cur = none ∧ q < nProc ∧ (k.proc q).state = .runnable
  | .kill _ | .wakeup _ => True
  | .sbrk _ | .fork | .exec _ _ _ | .exit | .wait | .pipe | .evict => k.cur.isSome

/-- The panics that an operation can meet. -/
def Op.Stops (k : Kernel) : Op → Panic → Prop
  | .access _ _, e => Exhausted e ∨ e = .faultLoop
  | .pageFault _ _, e => Exhausted e ∨ e = .initExiting
  | .sbrk _, e | .pipe, e | .evict, e => Exhausted e
  | .fork, e => Exhausted e ∨ (e = .copyuvmPte ∨ e = .copyuvmPage) ∧
      ∃ p s, k.cur = some p ∧ k.space p = some s ∧ ¬s.Whole
  | .exec _ _ _, e => Exhausted e ∨ e = .faultLoop ∨ e = .nullPointer
  | .exit, e => e = .initExiting
  | _, _ => False

/-- `sbrk` that frees all pages, and returns `-1`. -/
def Op.Empties (k : Kernel) : Op → Prop
  | .sbrk n => ∃ p, k.cur = some p ∧ n < 0 ∧ newSize (k.proc p).sz n = 0 ∧ 0 < (k.proc p).sz
  | _ => False

inductive Step (im : Image) : Kernel → Op × Reply → Kernel → Prop
  | mk {k k' : Kernel} {op : Op} {r : Reply} (h : op.Enabled k) (hrun : op.run im k = .ok r k') :
      Step im k (op, r) k'

/-- A step; `fork` must not have met a page in the swap area. -/
def CleanStep (im : Image) (k : Kernel) (e : Op × Reply) (k' : Kernel) : Prop :=
  Step im k e k' ∧ (e.1 = .fork → ¬Shared k'.trail)

/-- Moreover, no `sbrk` failed after it had freed all pages. -/
def SteadyStep (im : Image) (k : Kernel) (e : Op × Reply) (k' : Kernel) : Prop :=
  CleanStep im k e k' ∧ ¬e.1.Empties k

/-- A clean step in which no page was evicted between the start of a `fork` and its copy. -/
def PromptStep (im : Image) (k : Kernel) (e : Op × Reply) (k' : Kernel) : Prop :=
  CleanStep im k e k' ∧ (e.1 = .fork → ∀ evs, k'.trail = evs ++ k.trail → ∀ d va, Timely evs d va)

/-- The kernel has booted, and has made steps as `S` allows them. -/
def Reached (im : Image) (S : Kernel → Op × Reply → Kernel → Prop) (k : Kernel) : Prop :=
  ∃ initcode ram disk k₀ es, main im initcode (powerOn ram disk) = .ok () k₀ ∧ Run.Path S k₀ es k

/-! ### The flat machine -/

/-- The address spaces of the processes, and the process that runs. -/
structure Flat where
  space : Nat → Option Space
  cur : Option Nat

def Kernel.flat (k : Kernel) : Flat := ⟨fun i => if i < nProc then k.space i else none, k.cur⟩

namespace Flat

def put (s : Flat) (i : Nat) (m : Space) : Flat := { s with space := update s.space i (some m) }

/-- Process `p` is gone. -/
def drop (s : Flat) (p : Nat) : Flat := ⟨update s.space p none, none⟩

/-- The operations that no process sees. -/
def Unseen : Op → Reply → Prop
  | .access _ _, _ | .wait, _ | .pipe, _ | .close _, _ | .kill _, _ | .wakeup _, _ | .evict, _ => True
  | .load _, .fault | .store _ _, .fault | .pageFault _ _, .done => True
  | .fork, .int r | .exec _ _ _, .int r => r = -1
  | _, _ => False

inductive Step : Flat → Op × Reply → Flat → Prop
  | unseen {s : Flat} {op : Op} {r : Reply} (h : Unseen op r) : Step s (op, r) s
  | load {s : Flat} {p : Nat} {m : Space} {va : Nat} {b : BitVec 8} (hp : s.cur = some p)
      (hm : s.space p = some m) (hb : m.read va = some b) : Step s (.load va, .byte b) s
  | store {s : Flat} {p : Nat} {m : Space} {va : Nat} {b : BitVec 8} (hp : s.cur = some p)
      (hm : s.space p = some m) (hw : m.Writes va) : Step s (.store va b, .done) (s.put p (m.write va b))
  | killed {s : Flat} {p va : Nat} {user : Bool} (hp : s.cur = some p) :
      Step s (.pageFault va user, .exited) (s.drop p)
  | sbrk {s : Flat} {p : Nat} {m m' : Space} {n r : Int} (hp : s.cur = some p) (hm : s.space p = some m)
      (hr : m.Sbrk n r m') : Step s (.sbrk n, .int r) (s.put p m')
  | fork {s : Flat} {p i : Nat} {m : Space} {r : Int} (hp : s.cur = some p) (hm : s.space p = some m)
      (hi : s.space i = none) (hr : r ≠ -1) : Step s (.fork, .int r) (s.put i m)
  | exec {s : Flat} {p : Nat} {m m' : Space} {phs : Option (List Segment)} {path : UserString}
      {argv : List UserString} (hp : s.cur = some p) (hm : s.space p = some m) (hw : m'.Whole)
      (hargs : m'.Passed argv) : Step s (.exec phs path argv, .int 0) (s.put p m')
  | exit {s : Flat} {p : Nat} (hp : s.cur = some p) : Step s (.exit, .exited) (s.drop p)
  | sched {s : Flat} {st : ProcState} : Step s (.sched st, .done) { s with cur := none }
  | dispatch {s : Flat} {q : Nat} {m : Space} (hcur : s.cur = none) (hm : s.space q = some m) :
      Step s (.dispatch q, .done) { s with cur := some q }

end Flat

end Xv6.Swap
