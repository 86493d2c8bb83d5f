import AdvancedXv6.Files.State

/-! The inode cache and the inodes on the disk. -/

namespace Xv6.Files
open Function Effect

/-- The inode as the disk holds it. -/
def Dinode.pack (d : Dinode) (v : Version) : Dinode :=
  { d with nlink := v.storeNlink d.nlink, perm := d.perm % 2 ^ 3 }

/-- `iupdate`, less `log_write`'s test, which every caller meets. -/
def iupdate (ip : Nat) : M Unit := modify fun k =>
  { k with dinode := update k.dinode (k.inode ip).inum ((k.inode ip).copy.pack k.version) }

def iget (dev inum : Nat) : M Nat := do
  let k ← get
  match (List.range ninode).find? fun i =>
      decide (0 < (k.inode i).ref ∧ (k.inode i).dev = dev ∧ (k.inode i).inum = inum) with
  | some i =>
    modify fun k => k.setInode i fun n => { n with ref := n.ref + 1 }
    return i
  | none =>
    match (List.range ninode).find? fun i => decide ((k.inode i).ref = 0) with
    | none => throw .iget
    | some i =>
      modify fun k => k.setInode i fun n => { n with dev, inum, ref := 1, valid := false }
      return i

def ialloc (dev : Nat) (type : Kind) : M Nat := do
  let k ← get
  match (List.range' 1 (ninodes - 1)).find? fun n => decide ((k.dinode n).type = .free) with
  | none => throw .ialloc
  | some n =>
    modify fun k => { k.setData n fun _ => ⟨[], [], 0⟩ with
      dinode := update k.dinode n ⟨type, 0, 0, 0, 0⟩
      notes := .created n :: k.notes }
    iget dev n

def idup (ip : Nat) : M Nat := do
  modify fun k => k.setInode ip fun i => { i with ref := i.ref + 1 }
  return ip

def acquiresleep (ip : Nat) : M Unit := do
  if ((← get).inode ip).locked then throw .deadlock
  modify fun k => k.setInode ip fun i => { i with locked := true }

def releasesleep (ip : Nat) : M Unit :=
  modify fun k => k.setInode ip fun i => { i with locked := false }

def ilock (ip : Nat) : M Unit := do
  if ((← get).inode ip).ref < 1 then throw .ilock
  acquiresleep ip
  let k ← get
  if (k.inode ip).valid = false then
    modify fun k => k.setInode ip fun i => { i with copy := k.dinode i.inum, valid := true }
    if ((← get).inode ip).copy.type = .free then throw .noType

def iunlock (ip : Nat) : M Unit := do
  let k ← get
  if (k.inode ip).locked = false ∨ (k.inode ip).ref < 1 then throw .iunlock
  releasesleep ip

def itrunc (ip : Nat) : M Unit := do
  let n := ((← get).inode ip).inum
  modify fun k => { k.setData n fun _ => ⟨[], [], 0⟩ with
    free := k.free + blocksFor (k.data n).blocks }
  iupdate ip

def iput (ip : Nat) : M Unit := do
  acquiresleep ip
  let i := (← get).inode ip
  if i.valid ∧ i.copy.nlink = 0 ∧ i.ref = 1 then
    itrunc ip
    modify fun k => k.setInode ip fun i => { i with copy := { i.copy with type := .free } }
    iupdate ip
    modify fun k => (k.setInode ip fun i => { i with valid := false }).note (.freed i.inum)
  releasesleep ip
  modify fun k => k.setInode ip fun i => { i with ref := i.ref - 1 }

def iunlockput (ip : Nat) : M Unit := do
  iunlock ip
  iput ip

end Xv6.Files
