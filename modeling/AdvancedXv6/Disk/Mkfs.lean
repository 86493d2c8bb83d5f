import AdvancedXv6.Disk.Calls

/-! `mkfs`: the image of a list of files. -/

namespace Xv6.Disk.Mkfs
open Function Effect Bytes

/-- The image file and the counters. -/
structure Image where
  disk : Nat → Block
  freeinode : Nat
  freeblock : Nat

/-- The assertions that can fail. -/
inductive Assertion
  | rootIno
  | slash
  | maxFile
  deriving DecidableEq

abbrev Mk := Prog Assertion Image

/-- An input file, as it is named and as `read` gives it. -/
structure File where
  name : Name
  chunks : List (List UInt8)

def assert (e : Assertion) (p : Prop) [Decidable p] : Mk Unit := if p then pure () else throw e

def wsect (n : Nat) (x : Block) : Mk Unit := modify fun m => { m with disk := update m.disk n x }

def rsect (n : Nat) : Mk Block := do return (← get).disk n

def Image.dinode (m : Image) (i : Nat) : Dinode := .load (m.disk (iblock i)) (ioff i)

def rinode (i : Nat) : Mk Dinode := do return (← get).dinode i

def winode (i : Nat) (d : Dinode) : Mk Unit := do
  let buf ← rsect (iblock i)
  wsect (iblock i) (d.store buf (ioff i))

def ialloc (type : Nat) : Mk Nat := do
  let inum := (← get).freeinode
  modify fun m => { m with freeinode := inum + 1 }
  winode inum ⟨type, 0, 0, 1, 0, fun _ => 0⟩
  return inum

/-- `freeblock++` -/
def nextBlock : Mk Nat := do
  let b := (← get).freeblock
  modify fun m => { m with freeblock := b + 1 }
  return b

/-- A block of `din.addrs`, taken if necessary. -/
def direct (din : Dinode) (k : Nat) : Mk Dinode := do
  if din.addrs k = 0 then
    let b ← nextBlock
    return { din with addrs := update din.addrs k b }
  else
    return din

/-- A block of the indirect block `bp`, taken if necessary. -/
def indirect (bp k : Nat) : Mk Nat := do
  let indirect ← rsect bp
  if word indirect (4 * k) 4 = 0 then
    let b ← nextBlock
    wsect bp (put indirect (4 * k) (digits b) 4)
    return b
  else
    return word indirect (4 * k) 4

/-- The block number `fbn` of a file. -/
def block (din : Dinode) (fbn : Nat) : Mk (Dinode × Nat) := do
  if fbn < ndirect then
    let din ← direct din fbn
    return (din, din.addrs fbn)
  else
    let din ← direct din ndirect
    let x ← indirect (din.addrs ndirect) (fbn - ndirect)
    return (din, x)

/-- The loop of `iappend`, with `n` bytes to go: the inode and the offset after it. -/
def appendLoop : Nat → Dinode → Nat → (Nat → UInt8) → Nat → Mk (Dinode × Nat)
  | 0, din, off, _, _ => return (din, off)
  | rounds + 1, din, off, p, n => do
    if n = 0 then
      return (din, off)
    else
      assert .maxFile (off / bsize < maxFile)
      let (din, x) ← block din (off / bsize)
      let n1 := min n ((off / bsize + 1) * bsize - off)
      let buf ← rsect x
      wsect x (put buf (off - off / bsize * bsize) p n1)
      appendLoop rounds din (off + n1) (fun k => p (k + n1)) (n - n1)

def iappend (inum : Nat) (p : Nat → UInt8) (n : Nat) : Mk Unit := do
  let din ← rinode inum
  let (din, off) ← appendLoop n din din.size p n
  winode inum { din with size := off }

/-- A sector of the map. -/
def ballocBuf (first last : Nat) : Block :=
  (List.range' first (last - first)).foldl
    (fun buf i => update buf (i % bpb / 8) (buf (i % bpb / 8) ||| mask i)) fun _ => 0

def balloc (used : Nat) : Mk Unit :=
  forEach (List.range ((used + bpb - 1) / bpb)) fun sector =>
    wsect (sb.bmapstart + sector) (ballocBuf (sector * bpb) (min used ((sector + 1) * bpb)))

/-- The words of `struct superblock`. -/
def superWords (s : Super) : List Nat :=
  [s.size, s.nblocks, s.ninodes, s.nlog, s.logstart, s.inodestart, s.bmapstart, s.swapstart, s.swapsize]

def superBytes (s : Super) : Nat → UInt8 := fun k => digits ((superWords s).getD (k / 4) 0) (k % 4)

/-- `'_'` -/
def underscore : UInt8 := 95

/-- The name that is written, less a leading underscore. -/
def File.stored (f : File) : Name := if f.name.head? = some underscore then f.name.tail else f.name

def addFile (f : File) : Mk Unit := do
  assert .slash (Files.slash ∉ f.name)
  let inum ← ialloc tFile
  iappend rootIno (dirent inum f.stored) direntSize
  forEach f.chunks fun c => iappend inum (fun k => c.getD k 0) c.length

def main (files : List File) : Mk Unit := do
  wsect 1 (put (fun _ => 0) 0 (superBytes sb) (4 * (superWords sb).length))
  let root ← ialloc tDir
  assert .rootIno (root = rootIno)
  iappend root (dirent root dot) direntSize
  iappend root (dirent root dotdot) direntSize
  forEach files addFile
  -- fix size of root inode dir
  let din ← rinode root
  winode root { din with size := (din.size / bsize + 1) * bsize }
  balloc (← get).freeblock

/-- The image after every sector was written with zeros. -/
def blank : Image := ⟨fun _ _ => 0, 1, nmeta⟩

end Xv6.Disk.Mkfs
