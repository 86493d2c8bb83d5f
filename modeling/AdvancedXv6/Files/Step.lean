import AdvancedXv6.Files.Syscall
import AdvancedXv6.Lib.Run

/-! Runs of system calls by the processes, each call atomic, from an image that `mkfs` has written. -/

namespace Xv6.Files
open Function Effect

inductive Call
  | open (path : Option Name) (omode : Nat)
  | close (fd : Int)
  | dup (fd : Int)
  | pipe (ok page : Bool)
  | read (fd : Int) (n : Option Nat) (io : Int)
  | write (fd : Int) (src : Option (List UInt8)) (io : Int)
  | fstat (fd : Int) (st : Bool)
  | link (old new : Option Name)
  | unlink (path : Option Name)
  | mkdir (path : Option Name)
  | mknod (path : Option Name) (major minor : Int)
  | chdir (path : Option Name)
  | chmod (path : Option Name) (mode : Int)
  | exec (path : Option Name) (args loads : Bool)
  deriving DecidableEq

def Call.perform : Call → M Ret
  | .open path omode => sysOpen path omode
  | .close fd => sysClose fd
  | .dup fd => sysDup fd
  | .pipe ok page => sysPipe ok page
  | .read fd n io => sysRead fd n io
  | .write fd src io => sysWrite fd src io
  | .fstat fd st => sysFstat fd st
  | .link old new => sysLink old new
  | .unlink path => sysUnlink path
  | .mkdir path => sysMkdir path
  | .mknod path major minor => sysMknod path major minor
  | .chdir path => sysChdir path
  | .chmod path mode => sysChmod path mode
  | .exec path args loads => sysExec path args loads

/-- `A3` has no `chmod`. -/
def Call.known (c : Call) (v : Version) : Bool :=
  match c with
  | .chmod .. => v = .a1
  | _ => true

inductive Event
  | call (c : Call)
  | fork
  | exit (next : Nat)
  | switch (next : Nat)
  deriving DecidableEq

namespace Kernel

/-- The state where the program returns. -/
def after {α : Type} (k : Kernel) (m : M α) : Option Kernel :=
  match m k with
  | .ok _ t => some t
  | .error .. => none

/-- The current process gives way to another. -/
def switch (k : Kernel) (next : Nat) : Option Kernel :=
  k.others[next]?.map fun p => { k with proc := p, others := k.others.set next k.proc }

/-- The current process is gone. -/
def leave (k : Kernel) (next : Nat) : Option Kernel :=
  k.others[next]?.map fun p => { k with proc := p, others := k.others.eraseIdx next }

def step (k : Kernel) : Event → Option Kernel
  | .call c => if c.known k.version then k.after c.perform else none
  | .fork => k.after Files.fork
  | .exit next => (k.after Files.exit).bind (·.leave next)
  | .switch next => k.switch next

end Kernel

/-! ### The image -/

/-- The files that `mkfs` puts into the root directory, by their names. -/
structure Image where
  files : List (Name × List UInt8)
  /-- the free data blocks -/
  free : Nat
  few : files.length + 2 ≤ ninodes

namespace Image

/-- The size of the root directory is rounded up to more than what is appended. -/
def rootEntries (img : Image) : List Dirent :=
  let es := ⟨rootIno, dot⟩ :: ⟨rootIno, dotDot⟩ ::
    img.files.zipIdx.map fun f => ⟨f.2 + 2, f.1.1.take dirSiz⟩
  es ++ List.replicate (32 * (16 * es.length / bsize + 1) - es.length) ⟨0, []⟩

def dinode (img : Image) (n : Nat) : Dinode :=
  if n = rootIno then ⟨.dir, 0, 0, 1, 0⟩
  else if 2 ≤ n ∧ n < img.files.length + 2 then ⟨.file, 0, 0, 1, 0⟩
  else ⟨.free, 0, 0, 0, 0⟩

def data (img : Image) (n : Nat) : Data :=
  if n = rootIno then ⟨img.rootEntries, [], blocksTo (16 * (img.files.length + 2))⟩
  else match img.files[n - 2]? with
  | some f => if 2 ≤ n then ⟨[], f.2, blocksTo f.2.length⟩ else ⟨[], [], 0⟩
  | none => ⟨[], [], 0⟩

/-- The first process, in the root directory. -/
def boot (img : Image) (version : Version) : Kernel where
  version
  inode i := if i = 0 then ⟨rootDev, rootIno, 1, false, false, ⟨.free, 0, 0, 0, 0⟩⟩
    else ⟨0, 0, 0, false, false, ⟨.free, 0, 0, 0, 0⟩⟩
  file _ := ⟨.none, 0, false, false, none, 0⟩
  dinode := img.dinode
  data := img.data
  free := img.free
  outstanding := 0
  proc := ⟨0, fun _ => none⟩
  others := []
  notes := []

end Image

end Xv6.Files
