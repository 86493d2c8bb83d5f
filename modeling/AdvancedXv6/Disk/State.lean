import AdvancedXv6.Lib.Bytes
import AdvancedXv6.Lib.Effect

/-! The blocks of the file system, as `bread` gives them to the kernel, and the inodes in memory. The
offsets of fields and the arithmetic on them are those of the code. -/

namespace Xv6.Disk
open Function Effect Bytes

def bsize : Nat := 512
def fsSize : Nat := 10000
def maxOpBlocks : Nat := 10
def logSize : Nat := 30
def swapSize : Nat := 6400
def ninodes : Nat := 200
def rootIno : Nat := 1
def ndirect : Nat := 12
def nindirect : Nat := bsize / 4
def maxFile : Nat := ndirect + nindirect
def dirSiz : Nat := 14
/-- `sizeof(struct dinode)` -/
def dinodeSize : Nat := 64
/-- `sizeof(struct dirent)` -/
def direntSize : Nat := 16
def ipb : Nat := bsize / dinodeSize
def bpb : Nat := bsize * 8

def tDir : Nat := 1
def tFile : Nat := 2
def tDev : Nat := 3

abbrev Block := Nat → UInt8

structure Super where
  size : Nat
  nblocks : Nat
  ninodes : Nat
  nlog : Nat
  logstart : Nat
  inodestart : Nat
  bmapstart : Nat
  swapstart : Nat
  swapsize : Nat

def nbitmap : Nat := fsSize / (bsize * 8) + 1
def ninodeblocks : Nat := ninodes / ipb + 1
def nmeta : Nat := 2 + logSize + ninodeblocks + nbitmap + 6400

/-- The super block that `mkfs` computes, and that `iinit` reads. -/
def sb : Super where
  size := fsSize
  nblocks := fsSize - nmeta
  ninodes := ninodes
  nlog := logSize
  swapstart := 2
  swapsize := swapSize
  logstart := 2 + swapSize
  inodestart := 2 + swapSize + logSize
  bmapstart := 2 + swapSize + logSize + ninodeblocks

/-- `IBLOCK(i, sb)` and the offset of the inode in it -/
def iblock (i : Nat) : Nat := i / ipb + sb.inodestart
def ioff (i : Nat) : Nat := i % ipb * dinodeSize

/-- `BBLOCK(b, sb)` -/
def bblock (b : Nat) : Nat := b / bpb + sb.bmapstart

/-- `struct dinode`, and its copy in `struct inode`; a `short` is kept as its 16 bits. -/
structure Dinode where
  type : Nat
  major : Nat
  minor : Nat
  nlink : Nat
  size : Nat
  /-- `NDIRECT + 1` addresses -/
  addrs : Nat → Nat

def Dinode.load (b : Block) (o : Nat) : Dinode where
  type := word b o 2
  major := word b (o + 2) 2
  minor := word b (o + 4) 2
  nlink := word b (o + 6) 2
  size := word b (o + 8) 4
  addrs := fun k => if k ≤ ndirect then word b (o + 12 + 4 * k) 4 else 0

/-- The bytes of the structure. -/
def Dinode.bytes (d : Dinode) : Nat → UInt8 := fun k =>
  if k < 2 then digits d.type k
  else if k < 4 then digits d.major (k - 2)
  else if k < 6 then digits d.minor (k - 4)
  else if k < 8 then digits d.nlink (k - 6)
  else if k < 12 then digits d.size (k - 8)
  else digits (d.addrs ((k - 12) / 4)) ((k - 12) % 4)

def Dinode.store (d : Dinode) (b : Block) (o : Nat) : Block := put b o d.bytes dinodeSize

structure Fs where
  /-- the blocks, as `bread` returns them -/
  blk : Nat → Block
  /-- the inodes in memory -/
  ip : Nat → Dinode
  valid : Nat → Bool
  /-- the references to the entry of the cache -/
  ref : Nat → Nat
  /-- `log.outstanding` -/
  outstanding : Nat
  /-- the blocks that were given to `log_write`, the last one first; no function reads it -/
  logged : List Nat

inductive Panic
  | outside
  | balloc
  | freeing
  | ialloc
  | noType
  | bmap
  | notDir
  | dirlookup
  | dirlinkRead
  | dirlink
  | isdirempty
  | nlink
  | unlink
  | createDots
  | create
  deriving DecidableEq

abbrev M := Prog Panic Fs

namespace Fs

def setIp (s : Fs) (i : Nat) (f : Dinode → Dinode) : Fs := { s with ip := update s.ip i (f (s.ip i)) }

def setBlk (s : Fs) (n : Nat) (x : Block) : Fs := { s with blk := update s.blk n x, logged := n :: s.logged }

/-- The bit of block `b` in the free map. -/
def bit (s : Fs) (b : Nat) : Bool := Bytes.bit (s.blk (bblock b)) (b % bpb)

end Fs

def setIp (i : Nat) (f : Dinode → Dinode) : M Unit := modify fun s => s.setIp i f

/-! ### Blocks -/

/-- `log_write` of a buffer that now has the data `x`. -/
def logWrite (n : Nat) (x : Block) : M Unit := do
  if (← get).outstanding < 1 then throw .outside
  modify fun s => s.setBlk n x

def bzero (b : Nat) : M Unit := logWrite b fun _ => 0

def balloc : M Nat := do
  let s ← get
  -- both loops: the first block whose bit is clear
  match (List.range sb.size).find? fun b => !s.bit b with
  | none => throw .balloc
  | some b =>
    logWrite (bblock b) (setBit (s.blk (bblock b)) (b % bpb))
    bzero b
    return b

def bfree (b : Nat) : M Unit := do
  let s ← get
  if s.bit b = false then throw .freeing
  logWrite (bblock b) (clearBit (s.blk (bblock b)) (b % bpb))

/-! ### Inodes -/

def iupdate (i : Nat) : M Unit := do
  let s ← get
  logWrite (iblock i) ((s.ip i).store (s.blk (iblock i)) (ioff i))

/-- The inode on the disk. -/
def Fs.dinode (s : Fs) (i : Nat) : Dinode := .load (s.blk (iblock i)) (ioff i)

def ilock (i : Nat) : M Unit := do
  let s ← get
  if s.valid i = false then
    modify fun s => { s with ip := update s.ip i (s.dinode i), valid := update s.valid i true }
    if (s.dinode i).type = 0 then throw .noType

/-- An entry of the cache without references is as good as none. -/
def iget (i : Nat) : M Unit := modify fun s =>
  { s with valid := if s.ref i = 0 then update s.valid i false else s.valid, ref := update s.ref i (s.ref i + 1) }

def idup (i : Nat) : M Unit := modify fun s => { s with ref := update s.ref i (s.ref i + 1) }

def ialloc (type : Nat) : M Nat := do
  let s ← get
  match (List.range' 1 (sb.ninodes - 1)).find? fun i => (s.dinode i).type = 0 with
  | none => throw .ialloc
  | some i =>
    logWrite (iblock i) (Dinode.store ⟨type, 0, 0, 0, 0, fun _ => 0⟩ (s.blk (iblock i)) (ioff i))
    iget i
    return i

/-- A block of `ip->addrs`, allocated if necessary. -/
def direct (i k : Nat) : M Nat := do
  let addr := ((← get).ip i).addrs k
  if addr = 0 then
    let addr ← balloc
    setIp i fun d => { d with addrs := update d.addrs k addr }
    return addr
  return addr

/-- A block of the indirect block `bp`, allocated if necessary. -/
def indirect (bp j : Nat) : M Nat := do
  let addr := word ((← get).blk bp) (4 * j) 4
  if addr = 0 then
    let addr ← balloc
    logWrite bp (put ((← get).blk bp) (4 * j) (digits addr) 4)
    return addr
  return addr

def bmap (i bn : Nat) : M Nat := do
  if bn < ndirect then
    direct i bn
  else if bn - ndirect < nindirect then
    let bp ← direct i ndirect
    indirect bp (bn - ndirect)
  else
    throw .bmap

def itrunc (i : Nat) : M Unit := do
  forEach (List.range ndirect) fun k => do
    let addr := ((← get).ip i).addrs k
    if addr ≠ 0 then
      bfree addr
      setIp i fun d => { d with addrs := update d.addrs k 0 }
  let bp := ((← get).ip i).addrs ndirect
  if bp ≠ 0 then
    forEach (List.range nindirect) fun j => do
      let addr := word ((← get).blk bp) (4 * j) 4
      if addr ≠ 0 then bfree addr
    bfree bp
    setIp i fun d => { d with addrs := update d.addrs ndirect 0 }
  setIp i fun d => { d with size := 0 }
  iupdate i

def iput (i : Nat) : M Unit := do
  let s ← get
  if s.valid i ∧ (s.ip i).nlink = 0 ∧ s.ref i = 1 then
    itrunc i
    setIp i fun d => { d with type := 0 }
    iupdate i
    modify fun s => { s with valid := update s.valid i false }
  modify fun s => { s with ref := update s.ref i (s.ref i - 1) }

/-! ### Content -/

/-- The loop of `readi`, with `n` bytes to go. -/
def readLoop (i : Nat) : Nat → Nat → Nat → M (List UInt8)
  | 0, _, _ => return []
  | rounds + 1, off, n => do
    if n = 0 then return []
    let b ← bmap i (off / bsize)
    let m := min n (bsize - off % bsize)
    let bp := (← get).blk b
    let rest ← readLoop i rounds (off + m) (n - m)
    return (List.range m).map (fun k => bp (off % bsize + k)) ++ rest

/-- The bytes that are copied to `dst`, if the call does not fail; a device gives `io`. -/
def readi (i off n : Nat) (io : Option (List UInt8)) : M (Option (List UInt8)) := do
  let ip := (← get).ip i
  if ip.type = tDev then return io
  if ip.size < off ∨ (off + n) % 2 ^ 32 < off then return none
  let n := if ip.size < (off + n) % 2 ^ 32 then ip.size - off else n
  let bytes ← readLoop i n off n
  return some bytes

/-- The most that `filewrite` writes in one transaction. -/
def maxWrite : Nat := (maxOpBlocks - 1 - 1 - 2) / 2 * 512

/-- The loop of `writei`, with `n` bytes to go: the offset after it. -/
def writeLoop (i : Nat) : Nat → (Nat → UInt8) → Nat → Nat → M Nat
  | 0, _, off, _ => return off
  | rounds + 1, src, off, n => do
    if n = 0 then return off
    let b ← bmap i (off / bsize)
    let m := min n (bsize - off % bsize)
    logWrite b (put ((← get).blk b) (off % bsize) src m)
    writeLoop i rounds (fun k => src (k + m)) (off + m) (n - m)

/-- Whether the bytes are written; a device gives `io`. -/
def writei (i : Nat) (src : Nat → UInt8) (off n : Nat) (io : Bool) : M Bool := do
  let ip := (← get).ip i
  if ip.type = tDev then return io
  if ip.size < off ∨ (off + n) % 2 ^ 32 < off then return false
  if maxFile * bsize < (off + n) % 2 ^ 32 then return false
  let off ← writeLoop i n src off n
  if 0 < n ∧ ((← get).ip i).size < off then
    setIp i fun d => { d with size := off }
    iupdate i
  return true

end Xv6.Disk
