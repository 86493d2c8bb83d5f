import AdvancedXv6.Disk.State
import AdvancedXv6.Files.Dir

/-! Directories, path names and the system calls, down to the bytes of the entries. -/

namespace Xv6.Disk
open Function Effect Bytes

/-- A string up to its NUL. -/
abbrev Name := List UInt8

def Name.byte (x : Name) (k : Nat) : UInt8 := x.getD k 0

def strncmp (p q : Nat → UInt8) : Nat → Int
  | 0 => 0
  | n + 1 =>
    if p 0 ≠ 0 ∧ p 0 = q 0 then strncmp (fun k => p (k + 1)) (fun k => q (k + 1)) n
    else (p 0).toNat - (q 0).toNat

/-- The `n` bytes that `strncpy(_, t, n)` writes. -/
def strncpy (t : Nat → UInt8) : Nat → List UInt8
  | 0 => []
  | n + 1 => if t 0 = 0 then 0 :: List.replicate n 0 else t 0 :: strncpy (fun k => t (k + 1)) n

def namecmp (s t : Nat → UInt8) : Int := strncmp s t dirSiz

/-- The bytes of a `struct dirent`. -/
def dirent (inum : Nat) (name : Name) : Nat → UInt8 := fun k =>
  if k < 2 then digits inum k else (strncpy name.byte dirSiz).getD (k - 2) 0

/-! ### Directories -/

/-- A `readi` of an entry, that has to give all its bytes. -/
def readDirent (dp off : Nat) (e : Panic) : M (Nat → UInt8) := do
  match ← readi dp off direntSize none with
  | none => throw e
  | some de =>
    if de.length ≠ direntSize then throw e
    return fun k => de.getD k 0

/-- The loop of `dirlookup`: the inode and the offset of the entry. -/
def dirlookupLoop (dp : Nat) (name : Name) : Nat → Nat → M (Option (Nat × Nat))
  | 0, _ => return none
  | rounds + 1, off => do
    if ((← get).ip dp).size ≤ off then return none
    let de ← readDirent dp off .dirlookup
    if word de 0 2 ≠ 0 ∧ namecmp name.byte (fun k => de (k + 2)) = 0 then
      iget (word de 0 2)
      return some (word de 0 2, off)
    dirlookupLoop dp name rounds (off + direntSize)

def dirlookup (dp : Nat) (name : Name) : M (Option (Nat × Nat)) := do
  let ip := (← get).ip dp
  if ip.type ≠ tDir then throw .notDir
  dirlookupLoop dp name ip.size 0

/-- The loop of `dirlink`: the offset of an entry that is not in use, or of the end. -/
def freeDirent (dp : Nat) : Nat → Nat → M Nat
  | 0, off => return off
  | rounds + 1, off => do
    if ((← get).ip dp).size ≤ off then return off
    let de ← readDirent dp off .dirlinkRead
    if word de 0 2 = 0 then return off
    freeDirent dp rounds (off + direntSize)

/-- Whether the entry is added. -/
def dirlink (dp : Nat) (name : Name) (inum : Nat) : M Bool := do
  match ← dirlookup dp name with
  | some (ip, _) =>
    iput ip
    return false
  | none =>
    let off ← freeDirent dp ((← get).ip dp).size 0
    if !(← writei dp (dirent inum name) off direntSize false) then throw .dirlink
    return true

/-- The loop of `isdirempty`. -/
def isdirempty (dp : Nat) : Nat → Nat → M Bool
  | 0, _ => return true
  | rounds + 1, off => do
    if ((← get).ip dp).size ≤ off then return true
    let de ← readDirent dp off .isdirempty
    if word de 0 2 ≠ 0 then return false
    isdirempty dp rounds (off + direntSize)

/-! ### Paths -/

/-- The loop of `namex` over the elements of the path. -/
def namexLoop (nameiparent : Bool) : Nat → List Name → M (Option (Nat × Name))
  | ip, [] => do
    if nameiparent then
      iput ip
      return none
    return some (ip, [])
  | ip, name :: rest => do
    ilock ip
    if ((← get).ip ip).type ≠ tDir then
      iput ip
      return none
    if nameiparent ∧ rest = [] then return some (ip, name)
    match ← dirlookup ip name with
    | none =>
      iput ip
      return none
    | some (next, _) =>
      iput ip
      namexLoop nameiparent next rest

def namex (cwd : Nat) (path : Name) (nameiparent : Bool) : M (Option (Nat × Name)) := do
  if path.head? = some Files.slash then
    iget rootIno
    namexLoop nameiparent rootIno (Files.elements path.length path)
  else
    idup cwd
    namexLoop nameiparent cwd (Files.elements path.length path)

def namei (cwd : Nat) (path : Name) : M (Option Nat) := do return (← namex cwd path false).map Prod.fst

def nameiparent (cwd : Nat) (path : Name) : M (Option (Nat × Name)) := namex cwd path true

/-! ### System calls -/

/-- A change of the inode in memory and `iupdate`. -/
def change (i : Nat) (f : Dinode → Dinode) : M Unit := do
  setIp i f
  iupdate i

/-- `nlink++` and `nlink--` on a `short` -/
def addLink (d : Dinode) : Dinode := { d with nlink := (d.nlink + 1) % 2 ^ 16 }
def dropLink (d : Dinode) : Dinode := { d with nlink := (d.nlink + (2 ^ 16 - 1)) % 2 ^ 16 }

def dot : Name := [46]
def dotdot : Name := [46, 46]

/-- The inode, locked. -/
def create (cwd : Nat) (path : Name) (type major minor : Nat) : M (Option Nat) := do
  match ← nameiparent cwd path with
  | none => return none
  | some (dp, name) =>
    ilock dp
    match ← dirlookup dp name with
    | some (ip, _) =>
      iput dp
      ilock ip
      if type = tFile ∧ ((← get).ip ip).type = tFile then return some ip
      iput ip
      return none
    | none =>
      let ip ← ialloc type
      ilock ip
      change ip fun d => { d with major := major % 2 ^ 16, minor := minor % 2 ^ 16, nlink := 1 }
      if type = tDir then
        change dp addLink
        if !(← dirlink ip dot ip) then throw .createDots
        if !(← dirlink ip dotdot dp) then throw .createDots
      if !(← dirlink dp name ip) then throw .create
      iput dp
      return some ip

/-- `begin_op` and `end_op` around a call. -/
def inOp {α : Type} (m : M α) : M α := do
  modify fun s => { s with outstanding := s.outstanding + 1 }
  let r ← m
  modify fun s => { s with outstanding := s.outstanding - 1 }
  return r

/-- The inode that is opened; `full` when there is no free file or descriptor. -/
def sysOpen (cwd : Nat) (path : Name) (omode : Nat) (full : Bool) : M (Option Nat) := inOp do
  let opened ← if omode &&& 0x200 ≠ 0 then create cwd path tFile 0 0 else
    match ← namei cwd path with
    | none => pure none
    | some ip =>
      ilock ip
      if ((← get).ip ip).type = tDir ∧ omode ≠ 0 then
        iput ip
        pure none
      else pure (some ip)
  match opened with
  | none => return none
  | some ip =>
    if full then
      iput ip
      return none
    return some ip

/-- `sys_mkdir` and `sys_mknod` -/
def sysMake (cwd : Nat) (path : Name) (type major minor : Nat) : M Bool := inOp do
  match ← create cwd path type major minor with
  | none => return false
  | some ip =>
    iput ip
    return true

def sysMkdir (cwd : Nat) (path : Name) : M Bool := sysMake cwd path tDir 0 0

def sysMknod (cwd : Nat) (path : Name) (major minor : Nat) : M Bool := sysMake cwd path tDev major minor

/-- The label `bad` of `sys_link`. -/
def linkBad (ip : Nat) : M Bool := do
  ilock ip
  change ip dropLink
  iput ip
  return false

def sysLink (cwd : Nat) (old new : Name) : M Bool := inOp do
  match ← namei cwd old with
  | none => return false
  | some ip =>
    ilock ip
    if ((← get).ip ip).type = tDir then
      iput ip
      return false
    change ip addLink
    match ← nameiparent cwd new with
    | none => linkBad ip
    | some (dp, name) =>
      ilock dp
      if !(← dirlink dp name ip) then
        iput dp
        linkBad ip
      else
        iput dp
        iput ip
        return true

/-- The test of `sys_unlink` on the inode that it removes. -/
def removable (ip : Nat) : M Bool := do
  let d := (← get).ip ip
  -- the short is not positive
  if d.nlink = 0 ∨ 2 ^ 15 ≤ d.nlink then throw .nlink
  if d.type = tDir then isdirempty ip d.size (2 * direntSize) else return true

/-- The entry is cleared, with the link that `..` made. -/
def eraseEntry (dp ip off : Nat) : M Unit := do
  if !(← writei dp (fun _ => 0) off direntSize false) then throw .unlink
  if ((← get).ip ip).type = tDir then change dp dropLink

def sysUnlink (cwd : Nat) (path : Name) : M Bool := inOp do
  match ← nameiparent cwd path with
  | none => return false
  | some (dp, name) =>
    ilock dp
    if namecmp name.byte dot.byte = 0 ∨ namecmp name.byte dotdot.byte = 0 then
      iput dp
      return false
    match ← dirlookup dp name with
    | none =>
      iput dp
      return false
    | some (ip, off) =>
      ilock ip
      if !(← removable ip) then
        iput ip
        iput dp
        return false
      eraseEntry dp ip off
      iput dp
      change ip dropLink
      iput ip
      return true

def sysChdir (cwd : Nat) (path : Name) : M (Option Nat) := inOp do
  match ← namei cwd path with
  | none => return none
  | some ip =>
    ilock ip
    if ((← get).ip ip).type ≠ tDir then
      iput ip
      return none
    iput cwd
    return some ip

/-- What `exec` does to the file system: it reads `n` bytes from `off` on for each `(off, n)`. -/
def exec (cwd : Nat) (path : Name) (reads : List (Nat × Nat)) : M Unit := inOp do
  match ← namei cwd path with
  | none => return
  | some ip =>
    ilock ip
    forEach reads fun r => do let _ ← readi ip r.1 r.2 none
    iput ip

def fileread (i off n : Nat) (io : Option (List UInt8)) : M (Option (List UInt8)) := do
  ilock i
  readi i off n io

/-- One transaction of `filewrite`; `sys_open` gives no descriptor that writes to a directory. -/
def filewrite (i : Nat) (src : Nat → UInt8) (off n : Nat) (io : Bool) : M Bool := inOp do
  ilock i
  if ((← get).ip i).type = tDir then return false
  writei i src off n io

end Xv6.Disk
