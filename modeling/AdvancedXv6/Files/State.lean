import AdvancedXv6.Lib.Effect
import Mathlib.Algebra.Order.Ring.Int
import Mathlib.Logic.Function.Basic

/-! The file system as its system calls see it: inodes on the disk and in the cache, the file table
and the processes. The two versions of the system differ in the packing of an inode on the disk and
in the permission checks. -/

namespace Xv6.Files
open Function Effect

def ninode : Nat := 50
def nfile : Nat := 100
def nofile : Nat := 16
def ndev : Nat := 10
def rootDev : Nat := 1
def rootIno : Nat := 1
def bsize : Nat := 512
def ndirect : Nat := 12
def maxFile : Nat := ndirect + bsize / 4
def dirSiz : Nat := 14
def console : Int := 1
/-- `sb.ninodes` -/
def ninodes : Nat := 200

/-- `A1` has permissions, `A3` has not. -/
inductive Version
  | a1
  | a3
  deriving DecidableEq

/-- A string up to its NUL byte. -/
abbrev Name := List UInt8

inductive Kind
  | free
  | dir
  | file
  | dev
  deriving DecidableEq

/-- `struct dinode`, less its size and addresses. -/
structure Dinode where
  type : Kind
  major : Int
  minor : Int
  nlink : Int
  perm : Nat
  deriving DecidableEq

/-- `struct dirent` -/
structure Dirent where
  inum : Nat
  name : Name
  deriving DecidableEq

/-- What the size and the addresses of an inode give: the entries of a directory, the bytes of a
file, and how many blocks are allocated for them. -/
structure Data where
  entries : List Dirent
  bytes : List UInt8
  blocks : Nat

def Data.size (d : Data) : Nat := 16 * d.entries.length + d.bytes.length

/-- An entry of the inode cache. The size and the addresses are kept with the disk inode, as
`writei` and `itrunc` write them through. -/
structure Inode where
  dev : Nat
  inum : Nat
  ref : Int
  locked : Bool
  valid : Bool
  copy : Dinode

inductive FileType
  | none
  | pipe
  | inode
  deriving DecidableEq

structure File where
  type : FileType
  ref : Int
  readable : Bool
  writable : Bool
  ip : Option Nat
  off : Nat

structure Proc where
  /-- the index of the current directory in the inode cache -/
  cwd : Nat
  ofile : Nat → Option Nat

/-- What has happened to inodes, the newest first. -/
inductive Note
  | created (inum : Nat)
  | freed (inum : Nat)
  | chmod (inum mode : Nat)
  /-- the permission bits of an entry of the cache have been consulted -/
  | consulted (ip : Nat)
  deriving DecidableEq

structure Kernel where
  version : Version
  inode : Nat → Inode
  file : Nat → File
  dinode : Nat → Dinode
  data : Nat → Data
  /-- the free data blocks -/
  free : Nat
  /-- `log.outstanding` -/
  outstanding : Nat
  proc : Proc
  /-- the processes that are not running -/
  others : List Proc
  notes : List Note

/-- Where the kernel panics, or a process waits for a lock that it holds itself. -/
inductive Panic
  | iget
  | ialloc
  | balloc
  | logWrite
  | ilock
  | noType
  | iunlock
  | dirlookup
  | dirlink
  | createDots
  | nlink
  | unlink
  | fileclose
  | filedup
  | fileread
  | filewrite
  | shortWrite
  | deadlock
  deriving DecidableEq

abbrev M := Prog Panic Kernel

namespace Kernel

def setInode (k : Kernel) (i : Nat) (f : Inode → Inode) : Kernel :=
  { k with inode := update k.inode i (f (k.inode i)) }

def setFile (k : Kernel) (f : Nat) (g : File → File) : Kernel :=
  { k with file := update k.file f (g (k.file f)) }

def setData (k : Kernel) (n : Nat) (f : Data → Data) : Kernel :=
  { k with data := update k.data n (f (k.data n)) }

@[simp] theorem setInode_self (k : Kernel) (i : Nat) (f : Inode → Inode) :
    (k.setInode i f).inode i = f (k.inode i) := update_self ..

theorem setInode_of_ne {i j : Nat} (hj : j ≠ i) (k : Kernel) (f : Inode → Inode) :
    (k.setInode i f).inode j = k.inode j := update_of_ne hj ..

theorem setInode_setInode (k : Kernel) (i : Nat) (f g : Inode → Inode) :
    (k.setInode i f).setInode i g = k.setInode i (g ∘ f) := by
  simp only [setInode, update_self, update_idem, comp_apply]

theorem setInode_congr {k : Kernel} {i : Nat} {f g : Inode → Inode} (h : f (k.inode i) = g (k.inode i)) :
    k.setInode i f = k.setInode i g := by
  rw [setInode, setInode, h]

@[simp] theorem setFile_self (k : Kernel) (f : Nat) (g : File → File) :
    (k.setFile f g).file f = g (k.file f) := update_self ..

theorem setFile_of_ne {f f' : Nat} (hf : f' ≠ f) (k : Kernel) (g : File → File) :
    (k.setFile f g).file f' = k.file f' := update_of_ne hf ..

def note (k : Kernel) (n : Note) : Kernel := { k with notes := n :: k.notes }

end Kernel

/-! ### Numbers -/

/-- The conversion to `short`. -/
def toShort (n : Int) : Int := (n + 2 ^ 15) % 2 ^ 16 - 2 ^ 15

/-- `dip->nlink = ip->nlink`: 13 bits in `A1`, a `short` in `A3`. -/
def Version.storeNlink : Version → Int → Int
  | .a1, n => n % 2 ^ 13
  | .a3, n => n

/-! ### Blocks -/

/-- The blocks for data and addresses of an inode with `n` data blocks. -/
def blocksFor (n : Nat) : Nat := if ndirect < n then n + 1 else n

/-- The calls of `bmap` for the blocks below `n`; `balloc` and `bzero` call `log_write`. -/
def bmapTo (inum n : Nat) : M Unit := do
  let k ← get
  if (k.data inum).blocks < n then
    let need := blocksFor n - blocksFor (k.data inum).blocks
    if k.free < need then throw .balloc
    if k.outstanding = 0 then throw .logWrite
    modify fun k => { k.setData inum fun d => { d with blocks := n } with free := k.free - need }

/-- The index of the block after the last byte. -/
def blocksTo (bytes : Nat) : Nat := (bytes + bsize - 1) / bsize

def beginOp : M Unit := modify fun k => { k with outstanding := k.outstanding + 1 }

def endOp : M Unit := modify fun k => { k with outstanding := k.outstanding - 1 }

end Xv6.Files
