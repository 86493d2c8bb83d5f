import AdvancedXv6.Lib.Bytes
import AdvancedXv6.Lib.Run

/-! The inodes of the version with permissions: `struct dinode` byte by byte, with the link count and the
permissions in one `short`, and the inode cache. -/

namespace Xv6.Icache
open Function Bytes

def ninode : Nat := 50
/-- `sb.ninodes` -/
def ninodes : Nat := 200
def ndirect : Nat := 12
/-- `sizeof(struct dinode)` -/
def dinodeSize : Nat := 64
/-- `IPB` -/
def ipb : Nat := 512 / dinodeSize

abbrev Short := BitVec 16
abbrev Uint := BitVec 32
abbrev Block := Nat → UInt8

/-- The fields that an inode in memory has in common with the one on the disk. -/
structure Copy where
  type : Short
  major : Short
  minor : Short
  nlink : Short
  size : Uint
  addrs : Fin (ndirect + 1) → Uint
  perm : Uint

structure Inode where
  dev : Nat
  inum : Nat
  ref : Nat
  valid : Bool
  copy : Copy

/-! ### `struct dinode` at the offset `o` of a block -/

/-- `dip->nlink = n`, the low 13 bits of the `short`. -/
def putNlink (b : Block) (o n : Nat) : Block := put b o (digits (word b o 2 / 8192 * 8192 + n % 8192)) 2

/-- `dip->perm = n`, the high 3 bits. -/
def putPerm (b : Block) (o n : Nat) : Block := put b o (digits (word b o 2 % 8192 + n % 8 * 8192)) 2

/-- The bytes of `ip->addrs`. -/
def Copy.addrBytes (c : Copy) : Nat → UInt8 := fun k =>
  if h : k / 4 < ndirect + 1 then digits (c.addrs ⟨k / 4, h⟩).toNat (k % 4) else 0

/-- The assignments of `iupdate`. -/
def Copy.store (c : Copy) (b : Block) (o : Nat) : Block :=
  let b := put b o (digits c.type.toNat) 2
  let b := put b (o + 2) (digits c.major.toNat) 2
  let b := put b (o + 4) (digits c.minor.toNat) 2
  let b := putNlink b (o + 6) c.nlink.toNat
  let b := put b (o + 8) (digits c.size.toNat) 4
  let b := putPerm b (o + 6) c.perm.toNat
  put b (o + 12) c.addrBytes 52

/-- The assignments of `ilock`. -/
def Copy.load (b : Block) (o : Nat) : Copy where
  type := BitVec.ofNat 16 (word b o 2)
  major := BitVec.ofNat 16 (word b (o + 2) 2)
  minor := BitVec.ofNat 16 (word b (o + 4) 2)
  nlink := BitVec.ofNat 16 (word b (o + 6) 2 % 8192)
  size := BitVec.ofNat 32 (word b (o + 8) 4)
  addrs := fun j => BitVec.ofNat 32 (word b (o + 12 + 4 * j) 4)
  perm := BitVec.ofNat 32 (word b (o + 6) 2 / 8192)

/-! ### The inode cache -/

structure Kernel where
  /-- the blocks of each device, as `bread` returns them -/
  disk : Nat → Nat → Block
  /-- `sb.inodestart` -/
  inodestart : Nat
  inode : Nat → Inode

namespace Kernel

/-- `IBLOCK(inum, sb)` -/
def iblock (k : Kernel) (inum : Nat) : Nat := inum / ipb + k.inodestart

def ioff (inum : Nat) : Nat := inum % ipb * dinodeSize

/-- The inode `inum` as it is on the device. -/
def dinode (k : Kernel) (dev inum : Nat) : Copy := .load (k.disk dev (k.iblock inum)) (ioff inum)

def setInode (k : Kernel) (i : Nat) (f : Inode → Inode) : Kernel := { k with inode := update k.inode i (f (k.inode i)) }

def setBlock (k : Kernel) (dev b : Nat) (x : Block) : Kernel :=
  { k with disk := update k.disk dev (update (k.disk dev) b x) }

def iupdate (k : Kernel) (i : Nat) : Kernel :=
  let ip := k.inode i
  k.setBlock ip.dev (k.iblock ip.inum) (ip.copy.store (k.disk ip.dev (k.iblock ip.inum)) (ioff ip.inum))

/-- `none` where it panics. -/
def iget (k : Kernel) (dev inum : Nat) : Option (Nat × Kernel) :=
  match (List.range ninode).find? fun i => decide (0 < (k.inode i).ref ∧ (k.inode i).dev = dev ∧ (k.inode i).inum = inum) with
  | some i => some (i, k.setInode i fun ip => { ip with ref := ip.ref + 1 })
  | none =>
    match (List.range ninode).find? fun i => decide ((k.inode i).ref = 0) with
    | none => none
    | some i => some (i, k.setInode i fun ip => { ip with dev := dev, inum := inum, ref := 1, valid := false })

/-- `memset`, and the type. -/
def fresh (type : Short) : Copy := ⟨type, 0, 0, 0, 0, fun _ => 0, 0⟩

def ialloc (k : Kernel) (dev : Nat) (type : Short) : Option (Nat × Kernel) :=
  match (List.range' 1 (ninodes - 1)).find? fun n => decide ((k.dinode dev n).type = 0) with
  | none => none
  | some n =>
    (k.setBlock dev (k.iblock n) ((fresh type).store (k.disk dev (k.iblock n)) (ioff n))).iget dev n

/-- `none` where it panics. -/
def ilock (k : Kernel) (i : Nat) : Option Kernel :=
  if (k.inode i).ref < 1 then none
  else if (k.inode i).valid then some k
  else
    let k := k.setInode i fun ip => { ip with copy := k.dinode ip.dev ip.inum, valid := true }
    if (k.inode i).copy.type = 0 then none else some k

/-- `itrunc` as far as the inode goes. -/
def itrunc (k : Kernel) (i : Nat) : Kernel :=
  (k.setInode i fun ip => { ip with copy := { ip.copy with addrs := fun _ => 0, size := 0 } }).iupdate i

def iput (k : Kernel) (i : Nat) : Kernel :=
  let k :=
    if (k.inode i).valid ∧ (k.inode i).copy.nlink = 0 ∧ (k.inode i).ref = 1 then
      (((k.itrunc i).setInode i fun ip => { ip with copy := { ip.copy with type := 0 } }).iupdate i).setInode i
        fun ip => { ip with valid := false }
    else k
  k.setInode i fun ip => { ip with ref := ip.ref - 1 }

end Kernel

/-- What system calls assign to an inode that they have locked. -/
inductive Change
  /-- `create` of a file, a directory or a device -/
  | create (major minor : Short)
  /-- `sys_link`, and a subdirectory made in a directory -/
  | link
  /-- `sys_unlink`, a failed `sys_link`, and a subdirectory removed from a directory -/
  | unlink
  /-- `sys_chmod` -/
  | chmod (mode : Uint)
  /-- `writei` and `bmap` -/
  | write (size : Uint) (addrs : Fin (ndirect + 1) → Uint)

def Change.apply (c : Copy) : Change → Copy
  | .create major minor => { c with major := major, minor := minor, nlink := 1 }
  | .link => { c with nlink := c.nlink + 1 }
  | .unlink => { c with nlink := c.nlink - 1 }
  | .chmod mode => { c with perm := (mode ^^^ 7) &&& 7 }
  | .write size addrs => { c with size := size, addrs := addrs }

inductive Event
  | ialloc (dev : Nat) (type : Short)
  | iget (dev inum : Nat)
  | idup (i : Nat)
  | ilock (i : Nat)
  | change (i : Nat) (c : Change)
  | iupdate (i : Nat)
  | iput (i : Nat)

namespace Kernel

/-- The entry `i` is in use and has been read. -/
def Loaded (k : Kernel) (i : Nat) : Prop := i < ninode ∧ 0 < (k.inode i).ref ∧ (k.inode i).valid = true

instance (k : Kernel) (i : Nat) : Decidable (k.Loaded i) := inferInstanceAs (Decidable (_ ∧ _))

def step (k : Kernel) : Event → Option Kernel
  | .ialloc dev type => (k.ialloc dev type).map Prod.snd
  | .iget dev inum => (k.iget dev inum).map Prod.snd
  | .idup i => if i < ninode ∧ 0 < (k.inode i).ref then some (k.setInode i fun ip => { ip with ref := ip.ref + 1 }) else none
  | .ilock i => if i < ninode then k.ilock i else none
  | .change i c => if k.Loaded i then some (k.setInode i fun ip => { ip with copy := c.apply ip.copy }) else none
  | .iupdate i => if k.Loaded i then some (k.iupdate i) else none
  | .iput i => if i < ninode ∧ 0 < (k.inode i).ref then some (k.iput i) else none

/-- After `iinit`, with the blocks of the disk as they are. -/
def mount (disk : Nat → Nat → Block) (inodestart : Nat) : Kernel where
  disk := disk
  inodestart := inodestart
  inode _ := ⟨0, 0, 0, false, fresh 0⟩

end Kernel

end Xv6.Icache
