import AdvancedXv6.Lib.Effect
import Mathlib.Logic.Function.Basic

/-! The log of the file system: the header in memory, the dirty buffers and the disk. -/

namespace Xv6.Log
open Function Effect

def maxOpBlocks : Nat := 10
def logSize : Nat := maxOpBlocks * 3

/-- The 128 words of a block of the disk. -/
abbrev Block := Nat → Nat

structure Super where
  nlog : Nat
  logstart : Nat

/-- The fields of `sb` that `mkfs` computes for the log. -/
def sb : Super where
  nlog := logSize
  logstart := 2 + 6400

/-- `struct logheader`; in a block, `n` is word 0 and `block[i]` is word `i + 1`. -/
structure Header where
  n : Nat
  block : Nat → Nat

structure Fs where
  disk : Nat → Block
  /-- the buffers with `B_DIRTY`; any other buffer is a copy of its block on the disk -/
  dirty : Nat → Option Block
  start : Nat
  size : Nat
  outstanding : Int
  committing : Bool
  lh : Header
  /-- the writes to the disk, the oldest first -/
  writes : List (Nat × Block)

inductive Panic
  | tooBig
  | outside
  | committing
  deriving DecidableEq

abbrev M := Prog Panic Fs

namespace Fs

/-- What `bread` returns. -/
def content (s : Fs) (b : Nat) : Block := (s.dirty b).getD (s.disk b)

def store (s : Fs) (b : Nat) (x : Block) : Fs :=
  { s with disk := update s.disk b x, dirty := update s.dirty b none, writes := s.writes ++ [(b, x)] }

end Fs

def bread (b : Nat) : M Block := do return (← get).content b

def bwrite (b : Nat) (x : Block) : M Unit := modify fun s => s.store b x

def installTrans : M Unit := do
  let s ← get
  forEach (List.range s.lh.n) fun tail => do
    let lbuf ← bread (s.start + tail + 1)
    bwrite (s.lh.block tail) lbuf

def readHead : M Unit := do
  let buf ← bread (← get).start
  modify fun s =>
    { s with lh := { n := buf 0, block := fun i => if i < buf 0 then buf (i + 1) else s.lh.block i } }

/-- The words of the header block. -/
def Header.words (lh : Header) (buf : Block) : Block := fun w =>
  if w = 0 then lh.n else if w ≤ lh.n then lh.block (w - 1) else buf w

def writeHead : M Unit := do
  let s ← get
  let buf ← bread s.start
  bwrite s.start (s.lh.words buf)

def clear : M Unit := modify fun s => { s with lh := { s.lh with n := 0 } }

def recoverFromLog : M Unit := do
  readHead
  installTrans
  clear
  writeHead

def initlog (sb : Super) : M Unit := do
  modify fun s => { s with start := sb.logstart, size := sb.nlog }
  recoverFromLog

/-- One round of the loop of `begin_op`: whether the operation is admitted. -/
def beginOp : M Bool := do
  let s ← get
  if s.committing then return false
  if (logSize : Int) < s.lh.n + (s.outstanding + 1) * maxOpBlocks then return false
  modify fun s => { s with outstanding := s.outstanding + 1 }
  return true

/-- `end_op` up to the release of the lock: whether it is to commit. -/
def endOp : M Bool := do
  modify fun s => { s with outstanding := s.outstanding - 1 }
  let s ← get
  if s.committing then throw .committing
  if s.outstanding = 0 then
    modify fun s => { s with committing := true }
    return true
  return false

def writeLog : M Unit := do
  let s ← get
  forEach (List.range s.lh.n) fun tail => do
    let src ← bread (s.lh.block tail)
    bwrite (s.start + tail + 1) src

def commit : M Unit := do
  if 0 < (← get).lh.n then
    writeLog
    writeHead
    installTrans
    clear
    writeHead

/-- The rest of `end_op`. -/
def finish : M Unit := do
  commit
  modify fun s => { s with committing := false }

/-- The tests of `log_write`, made before it takes the lock. -/
def logTests : M Unit := do
  let s ← get
  if logSize ≤ s.lh.n ∨ s.size - 1 ≤ s.lh.n then throw .tooBig
  if s.outstanding < 1 then throw .outside

/-- The loop of `log_write`, from index `i` with `k` more to go. -/
def Header.search (lh : Header) (b : Nat) : Nat → Nat → Nat
  | i, 0 => i
  | i, k + 1 => if lh.block i = b then i else lh.search b (i + 1) k

/-- The rest of `log_write`, for a buffer that its caller has filled with `x`. -/
def logAppend (b : Nat) (x : Block) : M Unit := modify fun s =>
  let i := s.lh.search b 0 s.lh.n
  { s with
    lh := { n := if i = s.lh.n then s.lh.n + 1 else s.lh.n, block := update s.lh.block i b }
    dirty := update s.dirty b (some x) }

end Xv6.Log
