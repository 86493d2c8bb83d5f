import AdvancedXv6.Files.State
import Mathlib.Algebra.Order.Ring.Int
import Mathlib.Data.List.Count

/-! The references that a state accounts for, and what the rest of the state owes to them. -/

namespace Xv6.Files
open Function

/-- The mode that the calls of `chmod` so far have given to an inode. -/
def granted : List Note → Nat → Nat
  | [], _ => 7
  | .created n :: ns, m => if n = m then 7 else granted ns m
  | .chmod n mode :: ns, m => if n = m then mode else granted ns m
  | .freed _ :: ns, m => granted ns m
  | .consulted _ :: ns, m => granted ns m

-- the equations of `granted` are made here, once for all proofs
section
attribute [local simp] granted
end

/-- The descriptors of a process for a file. -/
def Proc.descriptors (p : Proc) (f : Nat) : Nat :=
  (List.range nofile).countP fun fd => decide (p.ofile fd = some f)

namespace Kernel

def procs (k : Kernel) : List Proc := k.proc :: k.others

/-- A live entry of the file table of type `FD_INODE`. -/
def Live (k : Kernel) (f : Nat) : Prop := 0 < (k.file f).ref ∧ (k.file f).type = .inode

instance (k : Kernel) (f : Nat) : Decidable (k.Live f) := inferInstanceAs (Decidable (_ ∧ _))

/-- The file-table entries and the current directories that are references to an inode. -/
def uses (k : Kernel) (i : Nat) : Nat :=
  (List.range nfile).countP (fun f => decide (k.Live f ∧ (k.file f).ip = some i)) +
    k.procs.countP fun p => decide (p.cwd = i)

def descriptors (k : Kernel) (f : Nat) : Nat := (k.procs.map fun p => p.descriptors f).sum

end Kernel

/-- What holds while the kernel holds the references `H` to inodes, the references `G` to files and
the locks `L`. -/
structure Inv (v : Version) (H G L : List Nat) (k : Kernel) : Prop where
  version : k.version = v
  cwd : ∀ p ∈ k.procs, p.cwd < ninode
  ofile : ∀ p ∈ k.procs, ∀ fd f, p.ofile fd = some f → fd < nofile ∧ f < nfile
  held : ∀ i ∈ H, i < ninode
  opened : ∀ f < nfile, k.Live f → ∃ i < ninode, (k.file f).ip = some i ∧ (k.inode i).valid = true
  closed : ∀ f < nfile, (k.file f).type = .inode → 0 < (k.file f).ref
  ips : ∀ f < nfile, ∀ i, (k.file f).ip = some i → i < ninode
  refs : ∀ i < ninode, (k.inode i).ref = k.uses i + H.count i
  files : ∀ f < nfile, (k.file f).ref = k.descriptors f + G.count f
  unique : ∀ i < ninode, ∀ j < ninode, 0 < (k.inode i).ref → 0 < (k.inode j).ref →
    (k.inode i).inum = (k.inode j).inum → i = j
  dev : ∀ i < ninode, 0 < (k.inode i).ref → (k.inode i).dev = rootDev
  locked : ∀ i < ninode, (k.inode i).locked = true ↔ i ∈ L
  lock : ∀ i ∈ L, i < ninode ∧ (k.inode i).valid = true ∧ 0 < (k.inode i).ref
  cached : ∀ i < ninode, 0 < (k.inode i).ref → (k.inode i).valid = true →
    (k.inode i).copy.type = (k.dinode (k.inode i).inum).type ∧
    (k.inode i).copy.perm = (k.dinode (k.inode i).inum).perm ∧ (k.inode i).copy.type ≠ .free
  perm : ∀ n, (k.dinode n).type ≠ .free → (k.dinode n).perm = (granted k.notes n ^^^ 7) &&& 7

/-- The parts of the state that the invariant speaks of are the same. -/
structure Same (k t : Kernel) : Prop where
  inode : t.inode = k.inode
  file : t.file = k.file
  dinode : t.dinode = k.dinode
  entries : ∀ n, (t.data n).entries = (k.data n).entries
  proc : t.proc = k.proc
  others : t.others = k.others
  notes : t.notes = k.notes
  version : t.version = k.version

variable {v : Version} {H G L : List Nat} {k t : Kernel} {i j f : Nat}

theorem Same.refl (k : Kernel) : Same k k := ⟨rfl, rfl, rfl, fun _ => rfl, rfl, rfl, rfl, rfl⟩

theorem Same.trans {u : Kernel} (h : Same k t) (h' : Same t u) : Same k u :=
  ⟨h'.inode.trans h.inode, h'.file.trans h.file, h'.dinode.trans h.dinode,
    fun n => (h'.entries n).trans (h.entries n), h'.proc.trans h.proc, h'.others.trans h.others,
    h'.notes.trans h.notes, h'.version.trans h.version⟩

/-- The invariant does not speak of the data of inodes and of the disk blocks. -/
theorem Inv.withData (h : Inv v H G L k) (data : Nat → Data) (free outstanding : Nat) :
    Inv v H G L { k with data, free, outstanding } :=
  ⟨h.version, h.cwd, h.ofile, h.held, h.opened, h.closed, h.ips, h.refs, h.files, h.unique, h.dev, h.locked, h.lock,
    h.cached, h.perm⟩

theorem Same.inv (hs : Same k t) (h : Inv v H G L k) : Inv v H G L t := by
  obtain ⟨version, inode, file, dinode, _, _, _, proc, others, notes⟩ := k
  obtain ⟨version', inode', file', dinode', data, free, outstanding, proc', others', notes'⟩ := t
  obtain ⟨hi, hf, hd, -, hp, ho, hn, hv⟩ := hs
  dsimp only at hi hf hd hp ho hn hv
  subst hi hf hd hp ho hn hv
  exact h.withData data free outstanding

end Xv6.Files
