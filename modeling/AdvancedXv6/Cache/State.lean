import AdvancedXv6.Lib.Links
import AdvancedXv6.Lib.Run
import AdvancedXv6.Log.State

/-! The buffer cache over the disk driver, and the commits of the log that go through it. The steps
of a process end where it lets a spinlock go. -/

namespace Xv6.Cache
open Function Links
open Log (Block Header logSize maxOpBlocks sb)

def nbuf : Nat := maxOpBlocks * 3
def fsSize : Nat := 10000
def rootDev : Nat := 1

abbrev Slot := Fin nbuf

structure Buf where
  /-- `B_VALID` -/
  valid : Bool
  /-- `B_DIRTY` -/
  dirty : Bool
  dev : Nat
  blockno : Nat
  /-- the process that has the sleep lock -/
  lock : Option Nat
  refcnt : Nat
  data : Block

/-- `(b->flags & (B_VALID|B_DIRTY)) == B_VALID` -/
def Buf.ready (b : Buf) : Bool := b.valid && !b.dirty

/-- What `idestart` has told the drive to do; the data of a write are with the drive by then. -/
structure Command where
  blockno : Nat
  write : Option Block

/-- The disk after the drive has done the command. -/
def Command.run (cmd : Command) (disk : Nat → Block) : Nat → Block :=
  match cmd.write with
  | some x => update disk cmd.blockno x
  | none => disk

inductive Mode
  | run
  /-- in `acquiresleep` of a `bget` for block `n` -/
  | lock (n : Nat) (b : Slot)
  /-- in `bread`, with the lock -/
  | fill (n : Nat) (b : Slot)
  /-- asleep in the `iderw` of `bread` -/
  | load (n : Nat) (b : Slot)
  /-- asleep in the `iderw` of `bwrite` -/
  | save (b : Slot)
  /-- in `log_write`, before it takes the lock -/
  | log (b : Slot)
  /-- in `brelse`, without the sleep lock -/
  | drop (b : Slot)
  deriving DecidableEq

/-- What the code of the log does next. A buffer is named by its place among those that its process
holds, the last one first, and a block by its index in the log or in `log.lh.block`. -/
inductive Instr
  | commit
  | breadLog (i : Nat)
  | breadHome (tail : Nat)
  | copy (dst src : Nat)
  | bwrite (i : Nat)
  | brelse (i : Nat)
  /-- `write_log` from `tail` on -/
  | writeLog (tail : Nat)
  /-- `install_trans` from `tail` on -/
  | installTrans (tail : Nat)
  /-- the header is copied to its block -/
  | setHead
  /-- the header is copied from its block -/
  | getHead
  | clear
  /-- the end of `end_op` -/
  | finish
  deriving DecidableEq

inductive Panic
  | noBuffers
  | blockno
  | idle
  | iderwLock
  | bwriteLock
  | brelseLock
  | tooBig
  | outside
  | committing
  deriving DecidableEq

structure Sys where
  buf : Slot → Buf
  /-- the links; `none` is `bcache.head` -/
  next : Option Slot → Option Slot
  prev : Option Slot → Option Slot
  idequeue : List Slot
  drive : Option Command
  /-- disk 1 -/
  disk : Nat → Block
  lh : Header
  outstanding : Int
  committing : Bool
  mode : Nat → Mode
  todo : Nat → List Instr
  panic : Option Panic
  /-- the buffers that `bread` has returned to a process, each with the block it has asked for -/
  held : Nat → List (Nat × Slot)
  /-- the processes that `refcnt` counts -/
  users : Slot → List Nat
  /-- modified, and not yet passed to `bwrite` or `log_write` -/
  touched : Slot → Bool
  /-- what a block has been given last by `bwrite` or `log_write` -/
  written : Nat → Block
  /-- passed to `log_write`, and since then neither to `bwrite` nor through a commit -/
  pinned : Nat → Bool
  /-- between its `begin_op` and its `end_op` -/
  inOp : Nat → Bool

namespace Sys

def fail (s : Sys) (p : Panic) : Sys := { s with panic := some p }

def setBuf (s : Sys) (b : Slot) (x : Buf) : Sys := { s with buf := update s.buf b x }

def setMode (s : Sys) (c : Nat) (m : Mode) : Sys := { s with mode := update s.mode c m }

/-- The buffers that a process holds. -/
def slots (s : Sys) (c : Nat) : List Slot := (s.held c).map (·.2)

/-- `holdingsleep(&b->lock)` -/
def holding (s : Sys) (c : Nat) (b : Slot) : Prop := (s.buf b).lock = some c

instance (s : Sys) (c : Nat) (b : Slot) : Decidable (s.holding c b) := inferInstanceAs (Decidable (_ = _))

/-- The first loop of `bget`. -/
def lookup (s : Sys) (n : Nat) : Option Slot :=
  find s.next (fun b => (s.buf b).dev = rootDev ∧ (s.buf b).blockno = n) nbuf (s.next none)

/-- The second loop of `bget`. -/
def unused (s : Sys) : Option Slot :=
  find s.prev (fun b => (s.buf b).refcnt = 0 ∧ (s.buf b).dirty = false) nbuf (s.prev none)

/-- The rest of `bget` before `acquiresleep`, with the buffer `x` is to be. -/
def take (s : Sys) (c n : Nat) (b : Slot) (x : Buf) : Sys :=
  { (s.setBuf b x).setMode c (.lock n b) with users := update s.users b (c :: s.users b) }

def bget (s : Sys) (c n : Nat) : Sys :=
  match s.lookup n with
  | some b => s.take c n b { s.buf b with refcnt := (s.buf b).refcnt + 1 }
  | none =>
    match s.unused with
    | some b =>
      s.take c n b { s.buf b with dev := rootDev, blockno := n, valid := false, dirty := false, refcnt := 1 }
    | none => s.fail .noBuffers

/-- What the drive is told to do for a buffer. -/
def command (x : Buf) : Command := ⟨x.blockno, if x.dirty then some x.data else none⟩

def idestart (s : Sys) (b : Slot) : Sys :=
  if fsSize ≤ (s.buf b).blockno then s.fail .blockno else { s with drive := some (command (s.buf b)) }

/-- `iderw` before it sleeps, which leaves the process in mode `m`. -/
def iderw (s : Sys) (c : Nat) (b : Slot) (m : Mode) : Sys :=
  if ¬s.holding c b then s.fail .iderwLock
  else if (s.buf b).ready then s.fail .idle
  else
    let t := { s.setMode c m with idequeue := s.idequeue ++ [b] }
    if t.idequeue.head? = some b then t.idestart b else t

/-- `bread` returns `b`. -/
def ret (s : Sys) (c n : Nat) (b : Slot) : Sys :=
  { s.setMode c .run with held := update s.held c ((n, b) :: s.held c) }

/-- `bread` after `bget`. -/
def bread (s : Sys) (c n : Nat) (b : Slot) : Sys :=
  if (s.buf b).valid then s.ret c n b else s.iderw c b (.load n b)

def ideintr (s : Sys) (cmd : Command) : Sys :=
  let disk := cmd.run s.disk
  match s.idequeue with
  | [] => { s with disk := disk, drive := none }
  | b :: queue =>
    let x := s.buf b
    let y := { x with data := if x.dirty then x.data else disk cmd.blockno, valid := true, dirty := false }
    let t := { s.setBuf b y with disk := disk, drive := none, idequeue := queue }
    match queue with
    | [] => t
    | b' :: _ => t.idestart b'

/-- The holder changes the data of `b`. -/
def modify (s : Sys) (b : Slot) (x : Block) : Sys :=
  { s.setBuf b { s.buf b with data := x } with touched := update s.touched b true }

/-- `b->flags |= B_DIRTY`, by `bwrite` or by `log_write`, which pins the block. -/
def mark (s : Sys) (b : Slot) (pin : Bool) : Sys :=
  let x := s.buf b
  { s.setBuf b { x with dirty := true } with
    touched := update s.touched b false
    written := update s.written x.blockno x.data
    pinned := update s.pinned x.blockno pin }

def bwrite (s : Sys) (c : Nat) (b : Slot) : Sys :=
  if s.holding c b then (s.mark b false).iderw c b (.save b) else s.fail .bwriteLock

/-- The tests of `log_write`. -/
def logTests (s : Sys) (c : Nat) (b : Slot) : Sys :=
  if logSize ≤ s.lh.n ∨ sb.nlog - 1 ≤ s.lh.n then s.fail .tooBig
  else if s.outstanding < 1 then s.fail .outside
  else s.setMode c (.log b)

/-- The header of the log with the block `n` in it. -/
def enter (lh : Header) (n : Nat) : Header :=
  let i := lh.search n 0 lh.n
  { n := if i = lh.n then lh.n + 1 else lh.n, block := update lh.block i n }

/-- The rest of `log_write`. -/
def logAppend (s : Sys) (c : Nat) (b : Slot) : Sys :=
  { (s.mark b true).setMode c .run with lh := enter s.lh (s.buf b).blockno }

/-- `brelse` up to the release of the sleep lock. -/
def brelse (s : Sys) (c : Nat) (b : Slot) : Sys :=
  if s.holding c b then
    { (s.setBuf b { s.buf b with lock := none }).setMode c (.drop b) with
      held := update s.held c ((s.held c).eraseP (·.2 = b)) }
  else s.fail .brelseLock

def unlink (s : Sys) (b : Slot) : Sys :=
  { s with
    prev := update s.prev (s.next (some b)) (s.prev (some b))
    next := update s.next (s.prev (some b)) (s.next (some b)) }

/-- `b` becomes the most recently used one. -/
def push (s : Sys) (b : Slot) : Sys :=
  { s with
    next := update (update s.next (some b) (s.next none)) none (some b)
    prev := update (update s.prev (some b) none) (s.next none) (some b) }

/-- `b->refcnt--` -/
def unref (s : Sys) (c : Nat) (b : Slot) : Sys :=
  { (s.setBuf b { s.buf b with refcnt := (s.buf b).refcnt - 1 }).setMode c .run with
    users := update s.users b ((s.users b).erase c) }

/-- The rest of `brelse`. -/
def drop (s : Sys) (c : Nat) (b : Slot) : Sys :=
  let t := s.unref c b
  if (t.buf b).refcnt = 0 then (t.unlink b).push b else t

/-- One round of the loop of `begin_op`, for an operation that is admitted. -/
def beginOp (s : Sys) (c : Nat) : Option Sys :=
  if s.committing = true ∨ (logSize : Int) < s.lh.n + (s.outstanding + 1) * maxOpBlocks then none
  else some { s with outstanding := s.outstanding + 1, inOp := update s.inOp c true }

def setTodo (s : Sys) (c : Nat) (is : List Instr) : Sys := { s with todo := update s.todo c is }

/-- The last operation goes on to the commit. -/
def endOp (s : Sys) (c : Nat) : Sys :=
  let t := { s with outstanding := s.outstanding - 1, inOp := update s.inOp c false }
  if s.committing then t.fail .committing
  else if t.outstanding = 0 then { t.setTodo c [.commit, .finish] with committing := true }
  else t

end Sys

def writeHead : List Instr := [.breadLog 0, .setHead, .bwrite 0, .brelse 0]

def recoverFromLog : List Instr := [.breadLog 0, .getHead, .brelse 0, .installTrans 0, .clear] ++ writeHead

namespace Sys

/-- The process `c` comes to the instruction `i`, with `rest` to do after it. -/
def instr (s : Sys) (c : Nat) (rest : List Instr) : Instr → Option Sys
  | .commit =>
    if 0 < s.lh.n then some (s.setTodo c ([.writeLog 0] ++ writeHead ++ [.installTrans 0, .clear] ++ writeHead ++ rest))
    else some (s.setTodo c rest)
  | .breadLog i => some ((s.setTodo c rest).bget c (sb.logstart + i))
  | .breadHome tail => some ((s.setTodo c rest).bget c (s.lh.block tail))
  | .copy dst src => (s.slots c)[dst]?.bind fun b => (s.slots c)[src]?.map fun b' =>
    (s.setTodo c rest).modify b (s.buf b').data
  | .bwrite i => (s.slots c)[i]?.map fun b => (s.setTodo c rest).bwrite c b
  | .brelse i => (s.slots c)[i]?.map fun b => (s.setTodo c rest).brelse c b
  | .writeLog tail =>
    -- the log block is `to`, the cache block is `from`
    if tail < s.lh.n then
      some (s.setTodo c ([.breadLog (tail + 1), .breadHome tail, .copy 1 0, .bwrite 1, .brelse 0, .brelse 0,
        .writeLog (tail + 1)] ++ rest))
    else some (s.setTodo c rest)
  | .installTrans tail =>
    if tail < s.lh.n then
      some (s.setTodo c ([.breadLog (tail + 1), .breadHome tail, .copy 0 1, .bwrite 0, .brelse 1, .brelse 0,
        .installTrans (tail + 1)] ++ rest))
    else some (s.setTodo c rest)
  | .setHead => (s.slots c)[0]?.map fun b => (s.setTodo c rest).modify b (s.lh.words (s.buf b).data)
  | .getHead => (s.slots c)[0]?.map fun b =>
    let lh := (s.buf b).data
    { s.setTodo c rest with
      lh := { n := lh 0, block := fun i => if i < lh 0 then lh (i + 1) else s.lh.block i } }
  | .clear => some { s.setTodo c rest with lh := { s.lh with n := 0 }, pinned := fun _ => false }
  | .finish => some { s.setTodo c rest with committing := false }

end Sys

inductive Event
  | bread (c n : Nat)
  | modify (c : Nat) (b : Slot) (x : Block)
  | bwrite (c : Nat) (b : Slot)
  | logWrite (c : Nat) (b : Slot)
  | brelse (c : Nat) (b : Slot)
  | beginOp (c : Nat)
  | endOp (c : Nat)
  /-- the log's code goes on -/
  | instr (c : Nat)
  /-- a process that is in a call goes on -/
  | resume (c : Nat)
  /-- the drive has done what it was told -/
  | intr

/-- The process that makes the step; the interrupt is taken for one of process 0. -/
def Event.proc : Event → Nat
  | .bread c _ | .modify c _ _ | .bwrite c _ | .logWrite c _ | .brelse c _ => c
  | .beginOp c | .endOp c | .instr c | .resume c => c
  | .intr => 0

namespace Sys

/-- A process that is in a call goes on, if it need not wait. -/
def resume (s : Sys) (c : Nat) : Option Sys :=
  match s.mode c with
  | .run => none
  | .lock n b =>
    if (s.buf b).lock = none then some ((s.setBuf b { s.buf b with lock := some c }).setMode c (.fill n b)) else none
  | .fill n b => some (s.bread c n b)
  | .load n b => if (s.buf b).ready then some (s.ret c n b) else none
  | .save b => if (s.buf b).ready then some (s.setMode c .run) else none
  | .log b => some (s.logAppend c b)
  | .drop b => some (s.drop c b)

/-- The process is in none of these calls. -/
def idle (s : Sys) (c : Nat) : Prop := s.mode c = .run ∧ s.todo c = []

instance (s : Sys) (c : Nat) : Decidable (s.idle c) := inferInstanceAs (Decidable (_ ∧ _))

/-- A process calls `bwrite`, `log_write` and `brelse` with a buffer that it holds, and gives one that
it has modified to one of the first two before the third. -/
def step (s : Sys) (e : Event) : Option Sys :=
  if s.panic.isSome then none
  else match e with
  | .bread c n => if s.idle c then some (s.bget c n) else none
  | .modify c b x => if s.idle c ∧ b ∈ s.slots c then some (s.modify b x) else none
  | .bwrite c b => if s.idle c ∧ b ∈ s.slots c then some (s.bwrite c b) else none
  | .logWrite c b => if s.idle c ∧ b ∈ s.slots c then some (s.logTests c b) else none
  | .brelse c b => if s.idle c ∧ b ∈ s.slots c ∧ s.touched b = false then some (s.brelse c b) else none
  | .beginOp c => if s.idle c ∧ s.inOp c = false then s.beginOp c else none
  | .endOp c => if s.idle c ∧ s.inOp c = true then some (s.endOp c) else none
  | .instr c =>
    match s.mode c, s.todo c with
    | .run, i :: rest => s.instr c rest i
    | _, _ => none
  | .resume c => s.resume c
  | .intr => s.drive.map s.ideintr

/-- An image of the disk whose log is no longer than the log can be. -/
abbrev Image := { d : Nat → Block // d sb.logstart 0 ≤ logSize }

/-- The state before `binit`, with the list's head linked to itself. -/
def start (d : Image) : Sys where
  buf := fun _ => ⟨false, false, 0, 0, none, 0, fun _ => 0⟩
  next := fun _ => none
  prev := fun _ => none
  idequeue := []
  drive := none
  disk := d
  lh := { n := 0, block := fun _ => 0 }
  outstanding := 0
  committing := false
  mode := fun _ => .run
  todo := update (fun _ => []) 0 recoverFromLog
  panic := none
  held := fun _ => []
  users := fun _ => []
  touched := fun _ => false
  written := d
  pinned := fun _ => false
  inOp := fun _ => false

/-- `binit`; process 0 is to recover the log. -/
def boot (d : Image) : Sys := (List.finRange nbuf).foldl push (start d)

end Sys

end Xv6.Cache
