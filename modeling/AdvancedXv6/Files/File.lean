import AdvancedXv6.Files.Inode

/-! The file table, and reading and writing through it. -/

namespace Xv6.Files
open Function Effect

/-! ### Inode content -/

/-- `devsw[major].read` and `devsw[major].write` are there. -/
def Dinode.driven (d : Dinode) : Prop := 0 ≤ d.major ∧ d.major < ndev ∧ d.major = console

instance (d : Dinode) : Decidable d.driven := inferInstanceAs (Decidable (_ ∧ _))

/-- How many bytes are read, where the device gives `io`. -/
def readi (ip off n : Nat) (io : Int) : M Int := do
  let i := (← get).inode ip
  if i.copy.type = .dev then return if i.copy.driven then io else -1
  let size := ((← get).data i.inum).size
  if size < off ∨ (off + n) % 2 ^ 32 < off then return -1
  let n := if size < off + n then size - off else n
  if 0 < n then bmapTo i.inum (blocksTo (off + n))
  return n

/-- How many bytes are written; the console takes them all. -/
def writei (ip off : Nat) (src : List UInt8) : M Int := do
  let i := (← get).inode ip
  if i.copy.type = .dev then return if i.copy.driven then src.length else -1
  let size := ((← get).data i.inum).size
  if size < off ∨ (off + src.length) % 2 ^ 32 < off then return -1
  if maxFile * bsize < off + src.length then return -1
  if 0 < src.length then
    bmapTo i.inum (blocksTo (off + src.length))
    modify fun k => k.setData i.inum fun d =>
      { d with bytes := d.bytes.take off ++ src ++ d.bytes.drop (off + src.length) }
    if size < off + src.length then iupdate ip
  return src.length

/-! ### Files -/

def filealloc : M (Option Nat) := do
  let k ← get
  match (List.range nfile).find? fun f => decide ((k.file f).ref = 0) with
  | none => return none
  | some f =>
    modify fun k => k.setFile f fun g => { g with ref := 1 }
    return some f

def filedup (f : Nat) : M Unit := do
  if ((← get).file f).ref < 1 then throw .filedup
  modify fun k => k.setFile f fun g => { g with ref := g.ref + 1 }

/-- The pointer to the inode of a file. -/
def fileIp (f : Nat) : M Nat := do
  match ((← get).file f).ip with
  | none => throw .ilock
  | some ip => return ip

/-- A pipe is closed without any effect on inodes and files. -/
def fileclose (f : Nat) : M Unit := do
  let ff := (← get).file f
  if ff.ref < 1 then throw .fileclose
  modify fun k => k.setFile f fun g => { g with ref := g.ref - 1 }
  if ff.ref - 1 = 0 then
    modify fun k => k.setFile f fun g => { g with type := .none }
    if ff.type = .inode then
      let ip ← fileIp f
      beginOp
      iput ip
      endOp

/-- Whether the file has metadata to copy. -/
def filestat (f : Nat) : M Bool := do
  if ((← get).file f).type = .inode then
    let ip ← fileIp f
    ilock ip
    iunlock ip
    return true
  return false

/-- Where `piperead` or the device gives `io`. -/
def fileread (f n : Nat) (io : Int) : M Int := do
  let g := (← get).file f
  if g.readable = false then return -1
  match g.type with
  | .pipe => return io
  | .none => throw .fileread
  | .inode =>
    let ip ← fileIp f
    ilock ip
    let r ← readi ip g.off n io
    if 0 < r then modify fun k => k.setFile f fun g => { g with off := g.off + r.toNat }
    iunlock ip
    return r

/-- The bytes of a transaction of `filewrite`. -/
def maxWrite : Nat := (10 - 1 - 1 - 2) / 2 * 512

/-- The loop of `filewrite`, over no more rounds than the number: whether all of it is written. -/
def writeLoop (f ip : Nat) : Nat → List UInt8 → M Bool
  | 0, src => return src.isEmpty
  | rounds + 1, src => do
    if src.isEmpty then return true
    let chunk := src.take maxWrite
    beginOp
    ilock ip
    let r ← writei ip ((← get).file f).off chunk
    if 0 < r then modify fun k => k.setFile f fun g => { g with off := g.off + r.toNat }
    iunlock ip
    endOp
    if r < 0 then return false
    if r ≠ chunk.length then throw .shortWrite
    writeLoop f ip rounds (src.drop maxWrite)

/-- Where `pipewrite` gives `io`. -/
def filewrite (f : Nat) (src : List UInt8) (io : Int) : M Int := do
  let g := (← get).file f
  if g.writable = false then return -1
  match g.type with
  | .pipe => return io
  | .none => throw .filewrite
  | .inode =>
    let ip ← fileIp f
    let done ← writeLoop f ip src.length src
    return if done then src.length else -1

end Xv6.Files
