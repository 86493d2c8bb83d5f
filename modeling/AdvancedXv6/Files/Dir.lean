import AdvancedXv6.Files.Inode

/-! Directories and path names. -/

namespace Xv6.Files
open Function Effect

/-- A directory entry to write at index `n`; `writei` fails beyond the largest file. -/
def writeEntry (dp n : Nat) (e : Dirent) (panic : Panic) : M Unit := do
  if maxFile * bsize < 16 * n + 16 then throw panic
  let inum := ((← get).inode dp).inum
  bmapTo inum (blocksTo (16 * n + 16))
  if n < ((← get).data inum).entries.length then
    modify fun k => k.setData inum fun d => { d with entries := d.entries.set n e }
  else
    modify fun k => k.setData inum fun d => { d with entries := d.entries ++ [e] }
    iupdate dp

/-- The inode of that name, and the index of its entry. -/
def dirlookup (dp : Nat) (name : Name) : M (Option (Nat × Nat)) := do
  let k ← get
  if (k.inode dp).copy.type ≠ .dir then throw .dirlookup
  let d := k.data (k.inode dp).inum
  match d.entries.findIdx? fun e => decide (e.inum ≠ 0 ∧ e.name = name) with
  | none =>
    bmapTo (k.inode dp).inum (blocksTo d.size)
    return none
  | some n =>
    bmapTo (k.inode dp).inum (blocksTo (16 * n + 16))
    let ip ← iget (k.inode dp).dev ((d.entries.getD n ⟨0, []⟩).inum)
    return some (ip, n)

/-- Whether the entry could be added. -/
def dirlink (dp : Nat) (name : Name) (inum : Nat) : M Bool := do
  match ← dirlookup dp name with
  | some (ip, _) =>
    iput ip
    return false
  | none =>
    let k ← get
    let entries := (k.data (k.inode dp).inum).entries
    let n := (entries.findIdx? fun e => decide (e.inum = 0)).getD entries.length
    writeEntry dp n ⟨inum, name⟩ .dirlink
    return true

/-- `'/'` -/
def slash : UInt8 := 47

/-- The next element of a path, cut to `DIRSIZ`, and the path after it. -/
def skipelem (path : Name) : Option (Name × Name) :=
  match path.dropWhile (· = slash) with
  | [] => none
  | c :: s => some (((c :: s).takeWhile (· ≠ slash)).take dirSiz,
      ((c :: s).dropWhile (· ≠ slash)).dropWhile (· = slash))

/-- The elements of a path, for a path no longer than the number. -/
def elements : Nat → Name → List Name
  | 0, _ => []
  | n + 1, path =>
    match skipelem path with
    | none => []
    | some (name, rest) => name :: elements n rest

/-- The loop of `namex` over the elements of the path. -/
def namexLoop (nameiparent : Bool) : Nat → List Name → M (Option (Nat × Name))
  | ip, [] => do
    if nameiparent then
      iput ip
      return none
    return some (ip, [])
  | ip, name :: rest => do
    ilock ip
    if ((← get).inode ip).copy.type ≠ .dir then
      iunlockput ip
      return none
    if nameiparent ∧ rest = [] then
      iunlock ip
      return some (ip, name)
    match ← dirlookup ip name with
    | none =>
      iunlockput ip
      return none
    | some (next, _) =>
      iunlockput ip
      namexLoop nameiparent next rest

def namex (path : Name) (nameiparent : Bool) : M (Option (Nat × Name)) := do
  let ip ← if path.head? = some slash then iget rootDev rootIno else idup (← get).proc.cwd
  namexLoop nameiparent ip (elements path.length path)

def namei (path : Name) : M (Option Nat) := do return (← namex path false).map Prod.fst

def nameiparent (path : Name) : M (Option (Nat × Name)) := namex path true

end Xv6.Files
