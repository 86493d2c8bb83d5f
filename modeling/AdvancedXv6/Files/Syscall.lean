import AdvancedXv6.Files.Dir
import AdvancedXv6.Files.File

/-! The system calls. An argument that the checks refuse is `none`. -/

namespace Xv6.Files
open Function Effect

/-- What a call returns; `denied` is -1 after the message of a permission check. -/
inductive Ret
  | int (r : Int)
  | denied
  deriving DecidableEq

def argfd (fd : Int) : M (Option Nat) := do
  if fd < 0 ∨ nofile ≤ fd then return none
  return (← get).proc.ofile fd.toNat

def Kernel.setFd (k : Kernel) (fd : Nat) (f : Option Nat) : Kernel :=
  { k with proc := { k.proc with ofile := update k.proc.ofile fd f } }

def fdalloc (f : Nat) : M (Option Nat) := do
  let k ← get
  match (List.range nofile).find? fun fd => (k.proc.ofile fd).isNone with
  | none => return none
  | some fd =>
    modify fun k => k.setFd fd (some f)
    return some fd

def sysDup (fd : Int) : M Ret := do
  match ← argfd fd with
  | none => return .int (-1)
  | some f =>
    match ← fdalloc f with
    | none => return .int (-1)
    | some fd =>
      filedup f
      return .int fd

/-- The permission check that `A1` makes before it looks at the type of the file: bit 0 guards
reading, bit 1 writing. -/
def forbidden (f bit : Nat) : M Bool := do
  if (← get).version = .a3 then return false
  let ip ← fileIp f
  ilock ip
  modify fun k => k.note (.consulted ip)
  let bad := ((← get).inode ip).copy.perm.testBit bit
  iunlock ip
  return bad

def sysRead (fd : Int) (n : Option Nat) (io : Int) : M Ret := do
  match ← argfd fd, n with
  | some f, some n =>
    if ← forbidden f 0 then return .denied
    return .int (← fileread f n io)
  | _, _ => return .int (-1)

def sysWrite (fd : Int) (src : Option (List UInt8)) (io : Int) : M Ret := do
  match ← argfd fd, src with
  | some f, some src =>
    if ← forbidden f 1 then return .denied
    return .int (← filewrite f src io)
  | _, _ => return .int (-1)

def sysClose (fd : Int) : M Ret := do
  match ← argfd fd with
  | none => return .int (-1)
  | some f =>
    modify fun k => k.setFd fd.toNat none
    fileclose f
    return .int 0

def sysFstat (fd : Int) (st : Bool) : M Ret := do
  match ← argfd fd with
  | none => return .int (-1)
  | some f =>
    if st then
      if ← filestat f then return .int 0
    return .int (-1)

/-- Adds `d` to `ip->nlink`. -/
def addNlink (ip : Nat) (d : Int) : M Unit := do
  modify fun k => k.setInode ip fun i => { i with copy := { i.copy with nlink := toShort (i.copy.nlink + d) } }
  iupdate ip

/-- The end of `sys_link` where the new name cannot be added. -/
def linkBad (ip : Nat) : M Ret := do
  ilock ip
  addNlink ip (-1)
  iunlockput ip
  endOp
  return .int (-1)

def sysLink (old new : Option Name) : M Ret := do
  match old, new with
  | some old, some new =>
    beginOp
    match ← namei old with
    | none =>
      endOp
      return .int (-1)
    | some ip =>
      ilock ip
      if ((← get).inode ip).copy.type = .dir then
        iunlockput ip
        endOp
        return .int (-1)
      addNlink ip 1
      iunlock ip
      match ← nameiparent new with
      | none => linkBad ip
      | some (dp, name) =>
        ilock dp
        let k ← get
        if (k.inode dp).dev ≠ (k.inode ip).dev then
          iunlockput dp
          linkBad ip
        else if ← dirlink dp name ((← get).inode ip).inum then
          iunlockput dp
          iput ip
          endOp
          return .int 0
        else
          iunlockput dp
          linkBad ip
  | _, _ => return .int (-1)

/-- `"."` and `".."` -/
def dot : Name := [46]
def dotDot : Name := [46, 46]

def isdirempty (dp : Nat) : M Bool := do
  let k ← get
  let d := k.data (k.inode dp).inum
  match (d.entries.drop 2).findIdx? fun e => decide (e.inum ≠ 0) with
  | none =>
    bmapTo (k.inode dp).inum (blocksTo d.size)
    return true
  | some n =>
    bmapTo (k.inode dp).inum (blocksTo (16 * (n + 2) + 16))
    return false

/-- The end of `sys_unlink` where nothing is removed. -/
def unlinkBad (dp : Nat) : M Ret := do
  iunlockput dp
  endOp
  return .int (-1)

/-- Whether the inode is a directory with more than the entries of every directory. -/
def busy (ip : Nat) : M Bool := do
  if ((← get).inode ip).copy.type = .dir then return !(← isdirempty ip)
  return false

/-- The end of `sys_unlink` where the entry is removed. -/
def removeEntry (dp ip off : Nat) : M Ret := do
  writeEntry dp off ⟨0, []⟩ .unlink
  if ((← get).inode ip).copy.type = .dir then addNlink dp (-1)
  iunlockput dp
  addNlink ip (-1)
  iunlockput ip
  endOp
  return .int 0

def sysUnlink (path : Option Name) : M Ret := do
  match path with
  | none => return .int (-1)
  | some path =>
    beginOp
    match ← nameiparent path with
    | none =>
      endOp
      return .int (-1)
    | some (dp, name) =>
      ilock dp
      if name = dot ∨ name = dotDot then unlinkBad dp
      else
        match ← dirlookup dp name with
        | none => unlinkBad dp
        | some (ip, off) =>
          ilock ip
          if ((← get).inode ip).copy.nlink < 1 then throw .nlink
          if ← busy ip then
            iunlockput ip
            unlinkBad dp
          else removeEntry dp ip off

/-- The link to the parent and the entries of a new directory. -/
def makeDots (dp ip : Nat) : M Unit := do
  addNlink dp 1
  let k ← get
  if !(← dirlink ip dot (k.inode ip).inum) then throw .createDots
  if !(← dirlink ip dotDot (k.inode dp).inum) then throw .createDots

/-- The locked inode, if there is one. -/
def create (path : Name) (type : Kind) (major minor : Int) : M (Option Nat) := do
  match ← nameiparent path with
  | none => return none
  | some (dp, name) =>
    ilock dp
    match ← dirlookup dp name with
    | some (ip, _) =>
      iunlockput dp
      ilock ip
      if type = .file ∧ ((← get).inode ip).copy.type = .file then return some ip
      iunlockput ip
      return none
    | none =>
      let ip ← ialloc ((← get).inode dp).dev type
      ilock ip
      modify fun k => k.setInode ip fun i => { i with copy := { i.copy with major, minor, nlink := 1 } }
      iupdate ip
      if type = .dir then makeDots dp ip
      if !(← dirlink dp name ((← get).inode ip).inum) then throw .dirlink
      iunlockput dp
      return some ip

/-- The flags of `open`. -/
def oWronly (omode : Nat) : Bool := omode.testBit 0
def oRdwr (omode : Nat) : Bool := omode.testBit 1
def oCreate (omode : Nat) : Bool := omode.testBit 9

/-- The inode to open, locked. -/
def openInode (path : Name) (omode : Nat) : M (Option Nat) := do
  if oCreate omode then create path .file 0 0
  else
    match ← namei path with
    | none => return none
    | some ip =>
      ilock ip
      if ((← get).inode ip).copy.type = .dir ∧ omode ≠ 0 then
        iunlockput ip
        return none
      return some ip

def sysOpen (path : Option Name) (omode : Nat) : M Ret := do
  match path with
  | none => return .int (-1)
  | some path =>
    beginOp
    match ← openInode path omode with
    | none =>
      endOp
      return .int (-1)
    | some ip =>
      match ← filealloc with
      | none =>
        iunlockput ip
        endOp
        return .int (-1)
      | some f =>
        match ← fdalloc f with
        | none =>
          fileclose f
          iunlockput ip
          endOp
          return .int (-1)
        | some fd =>
          iunlock ip
          endOp
          modify fun k => k.setFile f fun g => { g with
            type := .inode
            ip := some ip
            off := 0
            readable := !oWronly omode
            writable := oWronly omode || oRdwr omode }
          return .int fd

/-- The bits are kept inverted. -/
def sysChmod (file : Option Name) (mode : Int) : M Ret := do
  match file with
  | none => return .int (-1)
  | some file =>
    if mode < 0 ∨ 7 < mode then return .int (-1)
    else
      beginOp
      match ← namei file with
      | none =>
        endOp
        return .int (-1)
      | some ip =>
        ilock ip
        modify fun k => k.setInode ip fun i =>
          { i with copy := { i.copy with perm := (mode.toNat ^^^ 7) &&& 7 } }
        iupdate ip
        modify fun k => k.note (.chmod (k.inode ip).inum mode.toNat)
        iunlockput ip
        endOp
        return .int 0

/-- `sys_mkdir` and `sys_mknod`. -/
def sysMake (path : Option Name) (type : Kind) (major minor : Int) : M Ret := do
  beginOp
  match path with
  | none =>
    endOp
    return .int (-1)
  | some path =>
    match ← create path type (toShort major) (toShort minor) with
    | none =>
      endOp
      return .int (-1)
    | some ip =>
      iunlockput ip
      endOp
      return .int 0

def sysMkdir (path : Option Name) : M Ret := sysMake path .dir 0 0

def sysMknod (path : Option Name) (major minor : Int) : M Ret := sysMake path .dev major minor

def sysChdir (path : Option Name) : M Ret := do
  beginOp
  match path with
  | none =>
    endOp
    return .int (-1)
  | some path =>
    match ← namei path with
    | none =>
      endOp
      return .int (-1)
    | some ip =>
      ilock ip
      if ((← get).inode ip).copy.type ≠ .dir then
        iunlockput ip
        endOp
        return .int (-1)
      else
        iunlock ip
        iput (← get).proc.cwd
        endOp
        modify fun k => { k with proc := { k.proc with cwd := ip } }
        return .int 0

/-- What the permission check of `sys_exec` comes to. -/
inductive Check
  | missing
  | denied
  | passed
  deriving DecidableEq

/-- The part of `A1`'s `sys_exec` before it fetches the arguments. -/
def execCheck (path : Name) : M Check := do
  beginOp
  match ← namei path with
  | none =>
    endOp
    return .missing
  | some ip =>
    ilock ip
    modify fun k => k.note (.consulted ip)
    if ((← get).inode ip).copy.perm.testBit 2 then
      iunlockput ip
      endOp
      return .denied
    else
      iunlock ip
      endOp
      return .passed

/-- `exec`, as far as inodes go, where the loading succeeds or not. -/
def exec (path : Name) (loads : Bool) : M Ret := do
  beginOp
  match ← namei path with
  | none =>
    endOp
    return .int (-1)
  | some ip =>
    ilock ip
    iunlockput ip
    endOp
    return .int (if loads then 0 else -1)

def sysExec (path : Option Name) (args loads : Bool) : M Ret := do
  match path with
  | none => return .int (-1)
  | some path =>
    if (← get).version = .a3 then
      if args then exec path loads else return .int (-1)
    else
      match ← execCheck path with
      | .missing => return .int (-1)
      | .denied => return .denied
      | .passed => if args then exec path loads else return .int (-1)

/-- The two ends of a pipe. -/
def setPipe (f : Nat) (writable : Bool) : M Unit := modify fun k => k.setFile f fun g =>
  { g with type := .pipe, readable := !writable, writable }

/-- `pipealloc`, where `kalloc` finds a page or not. -/
def pipealloc (page : Bool) : M (Option (Nat × Nat)) := do
  match ← filealloc with
  | none => return none
  | some rf =>
    match ← filealloc with
    | none =>
      fileclose rf
      return none
    | some wf =>
      if page then
        setPipe rf false
        setPipe wf true
        return some (rf, wf)
      else
        fileclose rf
        fileclose wf
        return none

def sysPipe (ok page : Bool) : M Ret := do
  if ok then
    match ← pipealloc page with
    | none => return .int (-1)
    | some (rf, wf) =>
      match ← fdalloc rf with
      | none =>
        fileclose rf
        fileclose wf
        return .int (-1)
      | some fd0 =>
        match ← fdalloc wf with
        | none =>
          modify fun k => k.setFd fd0 none
          fileclose rf
          fileclose wf
          return .int (-1)
        | some _ => return .int 0
  else return .int (-1)

/-- `fork`, where there is room for a child. -/
def fork : M Unit := do
  let p := (← get).proc
  forEach (List.range nofile) fun fd =>
    match p.ofile fd with
    | none => pure ()
    | some f => filedup f
  let cwd ← idup p.cwd
  modify fun k => { k with others := ⟨cwd, fun fd => if fd < nofile then p.ofile fd else none⟩ :: k.others }

/-- `exit`, up to the release of the current directory. -/
def exit : M Unit := do
  forEach (List.range nofile) fun fd => do
    match (← get).proc.ofile fd with
    | none => pure ()
    | some f =>
      fileclose f
      modify fun k => k.setFd fd none
  beginOp
  iput (← get).proc.cwd
  endOp

end Xv6.Files
