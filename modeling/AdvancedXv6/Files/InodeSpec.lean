import AdvancedXv6.Files.CacheSpec

/-! The programs of the inode cache: where they return, the references they hold are accounted for. -/

namespace Xv6.Files
open Function Effect

variable {v : Version} {H G L L' : List Nat} {k t : Kernel} {i ip inum : Nat}

section Ends
variable {α β : Type} {m : M α} {f : α → M β} {Q Q' : α → Kernel → Prop} {R : β → Kernel → Prop}

/-- What a program leaves where it returns. -/
def Ends (m : M α) (k : Kernel) (Q : α → Kernel → Prop) : Prop := wp m k Q fun _ _ => True

theorem Ends.mono (h : Ends m k Q) (hQ : ∀ a t, Q a t → Q' a t) : Ends m k Q' :=
  wp_mono h hQ fun _ _ _ => trivial

theorem Ends.bind (h : Ends m k Q) (hf : ∀ a t, Q a t → Ends (f a) t R) : Ends (m >>= f) k R :=
  (wp_bind m f).mpr (wp_mono h hf fun _ _ _ => trivial)

theorem Ends.pure {a : α} (h : Q a k) : Ends (Pure.pure a) k Q := (wp_pure a).mpr h

theorem Ends.throw (e : Panic) : Ends (throw e : M α) k Q := (wp_throw e).mpr trivial

theorem Ends.get {Q : Kernel → Kernel → Prop} (h : Q k k) : Ends get k Q := wp_get.mpr h

theorem Ends.modify {g : Kernel → Kernel} {Q : Unit → Kernel → Prop} (h : Q () (g k)) :
    Ends (modify g) k Q := (wp_modify g).mpr h

theorem Ends.ite {c : Prop} [Decidable c] {m' : M α} (h : c → Ends m k Q) (h' : ¬c → Ends m' k Q) :
    Ends (if c then m else m') k Q := (wp_ite m m').mpr ⟨h, h'⟩

theorem ends_get_bind {f : Kernel → M β} : Ends (get >>= f) k R ↔ Ends (f k) k R := by
  rw [Ends, wp_bind, wp_get]
  rfl

theorem ends_modify_bind {g : Kernel → Kernel} {f : Unit → M β} :
    Ends (modify g >>= f) k R ↔ Ends (f ()) (g k) R := by
  rw [Ends, wp_bind, wp_modify]
  rfl

theorem ends_pure_bind {a : α} : Ends (Pure.pure a >>= f) k R ↔ Ends (f a) k R := by
  rw [Ends, wp_bind, wp_pure]
  rfl

theorem Ends.ok {a : α} (h : Ends m k Q) (hm : m k = .ok a t) : Q a t := wp_ok h hm

theorem Ends.of_ok (h : ∀ a t, m k = .ok a t → Q a t) : Ends m k Q := by
  cases hm : m k with
  | ok a t => exact wp_of_ok hm (h a t hm)
  | error e t => exact wp_of_error hm trivial

theorem Ends.any : Ends m k fun _ _ => True := .of_ok fun _ _ _ => trivial

theorem Ends.and (h : Ends m k Q) (h' : Ends m k Q') : Ends m k fun a t => Q a t ∧ Q' a t :=
  .of_ok fun _ _ hm => ⟨h.ok hm, h'.ok hm⟩

/-- The result comes from the program. -/
theorem Ends.self (h : Ends m k Q) : Ends m k fun a t => m k = .ok a t ∧ Q a t :=
  .of_ok fun _ _ hm => ⟨hm, h.ok hm⟩

end Ends

theorem find_lt {n : Nat} {p : Nat → Bool} (h : (List.range n).find? p = some i) : i < n ∧ p i = true :=
  ⟨List.mem_range.mp (List.mem_of_find?_eq_some h), List.find?_some h⟩

/-- What `ilock` does, if it returns. -/
theorem ilock_state (k : Kernel) (i : Nat) : Ends (ilock i) k fun _ t => t = k.lockedAt i ∧
    0 < (k.inode i).ref ∧ (k.inode i).locked = false ∧
    ((k.inode i).valid = false → (k.dinode (k.inode i).inum).type ≠ .free) := by
  simp only [ilock, acquiresleep, Ends, wp_bind, wp_get, wp_ite, wp_modify, wp_throw, wp_pure,
    Kernel.setInode_self, Kernel.setInode_setInode]
  refine ⟨fun _ => trivial, fun hpos => ⟨fun _ => trivial, fun hfree => ⟨fun hv => ⟨fun _ => trivial,
    fun htype => ⟨?_, ?_, ?_, fun _ => htype⟩⟩, fun hv => ⟨?_, ?_, ?_, fun hv' => absurd hv' hv⟩⟩⟩⟩
  · exact Kernel.setInode_congr (by simp [hv, Kernel.setInode])
  · omega
  · exact Bool.eq_false_iff.mpr hfree
  · exact Kernel.setInode_congr (by simp [hv])
  · omega
  · exact Bool.eq_false_iff.mpr hfree

theorem iunlock_state (k : Kernel) (i : Nat) : Ends (iunlock i) k fun _ t => t = k.unlockedAt i ∧
    (k.inode i).locked = true := by
  simp only [iunlock, releasesleep, Ends, wp_bind, wp_get, wp_ite, wp_modify, wp_throw]
  refine ⟨fun _ => trivial, fun h => ⟨rfl, ?_⟩⟩
  exact eq_true_of_ne_false fun hf => h (.inl hf)

/-- The state that `iput` leaves. -/
def Kernel.dropped (k : Kernel) (i : Nat) : Kernel :=
  if k.Unused i then { k.released i with
    data := update k.data (k.inode i).inum ⟨[], [], 0⟩
    free := k.free + blocksFor (k.data (k.inode i).inum).blocks }
  else k.released i

/-- What `iput` does, if it returns. -/
theorem iput_state (k : Kernel) (i : Nat) : Ends (iput i) k fun _ t => t = k.dropped i ∧
    (k.inode i).locked = false := by
  simp only [iput, acquiresleep, releasesleep, itrunc, iupdate, Ends, wp_bind, wp_get, wp_ite, wp_modify,
    wp_throw, Kernel.setInode_self]
  refine ⟨fun _ => trivial, fun hfree => ⟨fun hun => ⟨?_, ?_⟩, fun hun => ⟨?_, ?_⟩⟩⟩
  · have hun : k.Unused i := hun
    rw [Kernel.dropped, if_pos hun, Kernel.released, if_pos hun]
    simp [Kernel.setInode, Kernel.setData, Kernel.note, update_idem]
  · exact Bool.eq_false_iff.mpr hfree
  · have hun : ¬k.Unused i := hun
    rw [Kernel.dropped, if_neg hun, Kernel.released, if_neg hun]
    simp [Kernel.setInode, update_idem]
  · exact Bool.eq_false_iff.mpr hfree

/-- `iput` has nothing to do with the processes. -/
theorem Kernel.dropped_procs (k : Kernel) (i : Nat) (proc : Proc) (others : List Proc) :
    { k.dropped i with proc, others } = { k with proc, others }.dropped i := by
  have hun : { k with proc, others }.Unused i ↔ k.Unused i := Iff.rfl
  by_cases h : k.Unused i
  · rw [Kernel.dropped, Kernel.dropped, if_pos h, if_pos (hun.mpr h), Kernel.released, Kernel.released,
      if_pos h, if_pos (hun.mpr h)]
    rfl
  · rw [Kernel.dropped, Kernel.dropped, if_neg h, if_neg (hun.not.mpr h), Kernel.released, Kernel.released,
      if_neg h, if_neg (hun.not.mpr h)]
    rfl

@[simp] theorem Kernel.dropped_proc (k : Kernel) (i : Nat) : (k.dropped i).proc = k.proc := by
  have h : { k.dropped i with proc := k.proc, others := k.others } = k.dropped i :=
    k.dropped_procs i k.proc k.others
  exact (congrArg Kernel.proc h).symm

@[simp] theorem Kernel.dropped_others (k : Kernel) (i : Nat) : (k.dropped i).others = k.others := by
  have h : { k.dropped i with proc := k.proc, others := k.others } = k.dropped i :=
    k.dropped_procs i k.proc k.others
  exact (congrArg Kernel.others h).symm

theorem Kernel.dropped_setProc (k : Kernel) (i : Nat) (proc : Proc) :
    { k.dropped i with proc } = { k with proc }.dropped i := by
  refine Eq.trans ?_ (k.dropped_procs i proc k.others)
  exact congrArg (fun others => { k.dropped i with proc, others }) (k.dropped_others i)

/-- What `iget` does, if it returns: it finds an entry in use or takes one that is not. -/
theorem iget_state (k : Kernel) (dev inum : Nat) : Ends (iget dev inum) k fun i t => i < ninode ∧
    ((t = k.grabbed i ∧ 0 < (k.inode i).ref ∧ (k.inode i).inum = inum) ∨
      (t = k.setInode i (fun n => { n with dev, inum, ref := 1, valid := false }) ∧ (k.inode i).ref = 0 ∧
        ∀ j < ninode, 0 < (k.inode j).ref → (k.inode j).dev = dev → (k.inode j).inum ≠ inum)) := by
  rw [iget, ends_get_bind]
  split
  · rename_i i hfind
    obtain ⟨hi, hp⟩ := find_lt hfind
    obtain ⟨hpos, -, hinum⟩ := of_decide_eq_true hp
    rw [ends_modify_bind]
    exact .pure ⟨hi, .inl ⟨rfl, hpos, hinum⟩⟩
  · rename_i hnone
    split
    · exact .throw _
    · rename_i i hfind
      obtain ⟨hi, hp⟩ := find_lt hfind
      rw [ends_modify_bind]
      refine .pure ⟨hi, .inr ⟨rfl, of_decide_eq_true hp, fun j hj hpos hdev heq => ?_⟩⟩
      exact List.find?_eq_none.mp hnone j (List.mem_range.mpr hj) (decide_eq_true ⟨hpos, hdev, heq⟩)

/-- The inode is taken from the free ones. -/
def Kernel.allocated (k : Kernel) (n : Nat) (type : Kind) : Kernel :=
  { k.setData n fun _ => ⟨[], [], 0⟩ with
    dinode := update k.dinode n ⟨type, 0, 0, 0, 0⟩
    notes := .created n :: k.notes }

/-! ### Programs that leave the references and the locks accounted for -/

theorem Inv.alloc (h : Inv v H G L k) {n : Nat} (hn : (k.dinode n).type = .free) (type : Kind) :
    Inv v H G L (k.allocated n type) :=
  (h.allocate hn).withData _ _ _

theorem Inv.drop (h : Inv v (i :: H) G L k) (hl : i ∉ L) : Inv v H G L (k.dropped i) := by
  have := h.release hl
  rw [Kernel.dropped]
  split
  · exact this.withData _ _ _
  · exact this

/-- The current directories are old ones, or have been read from the disk. -/
def Kernel.Seats (k : Kernel) (ps : List Proc) : Prop :=
  ∀ p ∈ ps, (∃ q ∈ k.procs, q.cwd = p.cwd) ∨ ((k.inode p.cwd).valid = true ∧ 0 < (k.inode p.cwd).ref)

theorem Kernel.seats_of_subset {ps : List Proc} (h : ps ⊆ k.procs) : k.Seats ps := fun p hp => .inl ⟨p, h hp, rfl⟩

theorem Kernel.seats (k : Kernel) : k.Seats k.procs := Kernel.seats_of_subset (List.Subset.refl _)

/-- A property of the state, by the references to inodes, the references to files and the locks held,
that the operations of the inode cache and of the file table keep. -/
structure Steady (v : Version) (J : List Nat → List Nat → List Nat → Kernel → Prop) : Prop where
  inv : ∀ {H G L k}, J H G L k → Inv v H G L k
  same : ∀ {H G L k t}, J H G L k → Same k t → J H G L t
  table : ∀ {H H' G G' L k file proc others}, J H G L k → k.Seats (proc :: others) →
    Inv v H' G' L { k with file, proc, others } → J H' G' L { k with file, proc, others }
  consult : ∀ {H G L k} (i), J H G L k → J H G L (k.note (.consulted i))
  swap : ∀ {H G L k i j}, J (i :: j :: H) G L k → J (j :: i :: H) G L k
  grab : ∀ {H G L k i}, J H G L k → i < ninode → 0 < (k.inode i).ref → J (i :: H) G L (k.grabbed i)
  recycle : ∀ {H G L k i inum}, J H G L k → i < ninode → (k.inode i).ref = 0 →
    (∀ j < ninode, 0 < (k.inode j).ref → (k.inode j).inum ≠ inum) → J (i :: H) G L (k.recycled i inum)
  lock : ∀ {H G L k i}, J H G L k → i < ninode → 0 < (k.inode i).ref → i ∉ L →
    ((k.inode i).valid = false → (k.dinode (k.inode i).inum).type ≠ .free) → J H G (i :: L) (k.lockedAt i)
  unlock : ∀ {H G L L' k i}, J H G L k → i ∈ L → (∀ j, j ∈ L' ↔ j ∈ L ∧ j ≠ i) → J H G L' (k.unlockedAt i)
  drop : ∀ {H G L k i}, J (i :: H) G L k → i ∉ L → J H G L (k.dropped i)
  flush : ∀ {H G L k i}, J H G L k → i ∈ L → J H G L (k.updated i id)

theorem Inv.consult (h : Inv v H G L k) (i : Nat) : Inv v H G L (k.note (.consulted i)) :=
  ⟨h.version, h.cwd, h.ofile, h.held, h.opened, h.closed, h.ips, h.refs, h.files, h.unique, h.dev, h.locked, h.lock,
    h.cached, h.perm⟩

/-- The invariant itself. -/
theorem steady_inv (v : Version) : Steady v (Inv v) where
  inv h := h
  same h hs := hs.inv h
  table _ _ h := h
  consult i h := h.consult i
  swap h := h.reorder (fun _ => (List.Perm.swap ..).count_eq _) fun _ => Iff.rfl
  grab h := h.grab
  recycle h hi hzero := h.recycle hi hzero
  lock h hi hpos _ := h.lockAt hi hpos
  unlock h := h.unlock
  drop h := h.drop
  flush h hi := h.updated hi (fun _ => rfl) fun _ => rfl

/-- The parts of the state that the invariant speaks of are the same, and the bytes of the files. -/
structure Mild (k t : Kernel) : Prop extends Same k t where
  bytes : ∀ n, (t.data n).bytes = (k.data n).bytes

/-- A property that the references, the locks and the names of the cache keep, also where the kernel holds more references
than those that it speaks of. -/
structure Walks (v : Version) (J : List Nat → List Nat → List Nat → Kernel → Prop) : Prop where
  inv : ∀ {H G L k}, J H G L k → ∃ H', (∀ i ∈ H, i ∈ H') ∧ Inv v H' G L k
  mild : ∀ {H G L k t}, J H G L k → Mild k t → J H G L t
  swap : ∀ {H G L k i j}, J (i :: j :: H) G L k → J (j :: i :: H) G L k
  grab : ∀ {H G L k i}, J H G L k → i < ninode → 0 < (k.inode i).ref → J (i :: H) G L (k.grabbed i)
  recycle : ∀ {H G L k i inum}, J H G L k → i < ninode → (k.inode i).ref = 0 →
    (∀ j < ninode, 0 < (k.inode j).ref → (k.inode j).inum ≠ inum) → J (i :: H) G L (k.recycled i inum)
  lock : ∀ {H G L k i}, J H G L k → i < ninode → 0 < (k.inode i).ref → i ∉ L →
    ((k.inode i).valid = false → (k.dinode (k.inode i).inum).type ≠ .free) → J H G (i :: L) (k.lockedAt i)
  unlock : ∀ {H G L L' k i}, J H G L k → i ∈ L → (∀ j, j ∈ L' ↔ j ∈ L ∧ j ≠ i) → J H G L' (k.unlockedAt i)
  drop : ∀ {H G L k i}, J (i :: H) G L k → i ∉ L → J H G L (k.dropped i)

theorem Steady.walks {J : List Nat → List Nat → List Nat → Kernel → Prop} (hJ : Steady v J) : Walks v J where
  inv h := ⟨_, fun _ hi => hi, hJ.inv h⟩
  mild h hm := hJ.same h hm.toSame
  swap h := hJ.swap h
  grab h := hJ.grab h
  recycle h := hJ.recycle h
  lock h := hJ.lock h
  unlock h := hJ.unlock h
  drop h := hJ.drop h

namespace Walks
variable {J : List Nat → List Nat → List Nat → Kernel → Prop} (hJ : Walks v J)
include hJ

theorem held (h : J (i :: H) G L k) : i < ninode := by
  obtain ⟨H', hH, hinv⟩ := hJ.inv h
  exact hinv.held i (hH i List.mem_cons_self)

theorem iget (h : J H G L k) (inum : Nat) : Ends (iget rootDev inum) k fun i t =>
    J (i :: H) G L t ∧ (t.inode i).inum = inum := by
  obtain ⟨H', -, hinv⟩ := hJ.inv h
  refine (iget_state k rootDev inum).mono fun i t hi => ?_
  obtain ⟨hi, ⟨rfl, hpos, hinum⟩ | ⟨rfl, hzero, hnew⟩⟩ := hi
  · refine ⟨hJ.grab h hi hpos, ?_⟩
    rw [Kernel.grabbed, Kernel.setInode_self]
    exact hinum
  · refine ⟨hJ.recycle h hi hzero fun j hj hpos => hnew j hj hpos (hinv.dev j hj hpos), ?_⟩
    rw [Kernel.setInode_self]

theorem idup (h : J H G L k) (hi : i < ninode) (hpos : 0 < (k.inode i).ref) :
    Ends (idup i) k fun j t => j = i ∧ J (i :: H) G L t ∧ t = k.grabbed i := by
  rw [Files.idup, ends_modify_bind]
  exact .pure ⟨rfl, hJ.grab h hi hpos, rfl⟩

theorem ilock (h : J H G L k) (hlt : i < ninode) : Ends (ilock i) k fun _ t =>
    J H G (i :: L) t ∧ i ∉ L ∧ t = k.lockedAt i := by
  obtain ⟨H', -, hinv⟩ := hJ.inv h
  refine (ilock_state k i).mono fun _ t ht => ?_
  obtain ⟨rfl, hpos, hfree, htype⟩ := ht
  have hl : i ∉ L := fun hl => absurd ((hinv.locked i hlt).mpr hl) (Bool.eq_false_iff.mp hfree)
  exact ⟨hJ.lock h hlt hpos hl htype, hl, rfl⟩

theorem iunlock (h : J H G L k) (hi : i ∈ L) (hL : ∀ j, j ∈ L' ↔ j ∈ L ∧ j ≠ i) :
    Ends (iunlock i) k fun _ t => J H G L' t ∧ t = k.unlockedAt i := by
  refine (iunlock_state k i).mono fun _ t ht => ?_
  obtain ⟨rfl, -⟩ := ht
  exact ⟨hJ.unlock h hi hL, rfl⟩

theorem iput (h : J (i :: H) G L k) : Ends (iput i) k fun _ t => J H G L t ∧ t = k.dropped i := by
  obtain ⟨H', hH, hinv⟩ := hJ.inv h
  refine (iput_state k i).mono fun _ t ht => ?_
  obtain ⟨rfl, hfree⟩ := ht
  have hlt := hinv.held i (hH i List.mem_cons_self)
  have hl : i ∉ L := fun hl => absurd ((hinv.locked i hlt).mpr hl) (Bool.eq_false_iff.mp hfree)
  exact ⟨hJ.drop h hl, rfl⟩

theorem iunlockput (h : J (i :: H) G L k) (hi : i ∈ L) (hL : ∀ j, j ∈ L' ↔ j ∈ L ∧ j ≠ i) :
    Ends (iunlockput i) k fun _ t => J H G L' t := by
  refine (hJ.iunlock h hi hL).bind fun _ t ht => ?_
  exact (hJ.iput ht.1).mono fun _ _ h => h.1

end Walks

section Steady
variable {J : List Nat → List Nat → List Nat → Kernel → Prop} (hJ : Steady v J)
include hJ

theorem iget_spec (h : J H G L k) (inum : Nat) : Ends (iget rootDev inum) k fun i t =>
    J (i :: H) G L t ∧ (t.inode i).inum = inum := hJ.walks.iget h inum

theorem idup_spec (h : J H G L k) (hi : i < ninode) (hpos : 0 < (k.inode i).ref) :
    Ends (idup i) k fun j t => j = i ∧ J (i :: H) G L t ∧ t = k.grabbed i := hJ.walks.idup h hi hpos

theorem ilock_spec (h : J H G L k) (hlt : i < ninode) : Ends (ilock i) k fun _ t =>
    J H G (i :: L) t ∧ i ∉ L ∧ t = k.lockedAt i := hJ.walks.ilock h hlt

theorem iunlock_spec (h : J H G L k) (hi : i ∈ L) (hL : ∀ j, j ∈ L' ↔ j ∈ L ∧ j ≠ i) :
    Ends (iunlock i) k fun _ t => J H G L' t ∧ t = k.unlockedAt i := hJ.walks.iunlock h hi hL

theorem iput_spec (h : J (i :: H) G L k) : Ends (iput i) k fun _ t => J H G L t ∧ t = k.dropped i := hJ.walks.iput h

theorem iunlockput_spec (h : J (i :: H) G L k) (hi : i ∈ L) (hL : ∀ j, j ∈ L' ↔ j ∈ L ∧ j ≠ i) :
    Ends (iunlockput i) k fun _ t => J H G L' t := hJ.walks.iunlockput h hi hL

theorem iupdate_spec (h : J H G L k) (hi : i ∈ L) : Ends (iupdate i) k fun _ t => J H G L t := by
  have := hJ.flush h hi
  simp only [Kernel.updated, Kernel.setInode, id_eq, update_eq_self] at this
  exact .modify this

/-- `ialloc` takes a free inode of the disk, and then a reference to it. -/
theorem ialloc_spec {type : Kind}
    (h : ∀ n, (k.dinode n).type = .free → 0 < n → n < ninodes → J H G L (k.allocated n type)) :
    Ends (ialloc rootDev type) k fun i t => J (i :: H) G L t ∧ ∃ n, (k.dinode n).type = .free ∧
      0 < n ∧ n < ninodes ∧ (t.inode i).inum = n := by
  rw [ialloc, ends_get_bind]
  split
  · exact .throw _
  · rename_i n hfind
    have hn := List.mem_range'_1.mp (List.mem_of_find?_eq_some hfind)
    have hp := List.find?_some hfind
    have hfree := of_decide_eq_true hp
    have hlt : n < ninodes := hn.2
    rw [ends_modify_bind]
    refine (iget_spec hJ (h n hfree hn.1 hlt) n).mono fun i t hi => ?_
    exact ⟨hi.1, n, hfree, hn.1, hlt, hi.2⟩

end Steady

/-! ### Programs that leave what the invariant speaks of -/

theorem Mild.refl (k : Kernel) : Mild k k := ⟨.refl k, fun _ => rfl⟩

theorem beginOp_mild (k : Kernel) : Ends beginOp k fun _ t => Mild k t :=
  .modify ⟨⟨rfl, rfl, rfl, fun _ => rfl, rfl, rfl, rfl, rfl⟩, fun _ => rfl⟩

theorem endOp_mild (k : Kernel) : Ends endOp k fun _ t => Mild k t :=
  .modify ⟨⟨rfl, rfl, rfl, fun _ => rfl, rfl, rfl, rfl, rfl⟩, fun _ => rfl⟩

theorem beginOp_spec (k : Kernel) : Ends beginOp k fun _ t => Same k t :=
  (beginOp_mild k).mono fun _ _ h => h.toSame

theorem endOp_spec (k : Kernel) : Ends endOp k fun _ t => Same k t := (endOp_mild k).mono fun _ _ h => h.toSame

theorem same_setData (k : Kernel) (n : Nat) {f : Data → Data} (hf : ∀ d, (f d).entries = d.entries) :
    Same k (k.setData n f) := by
  refine ⟨rfl, rfl, rfl, fun m => ?_, rfl, rfl, rfl, rfl⟩
  simp only [Kernel.setData, update_apply]
  split
  · rename_i hm
    rw [hm, hf]
  · rfl

theorem bmapTo_mild (k : Kernel) (inum n : Nat) : Ends (bmapTo inum n) k fun _ t => Mild k t := by
  simp only [bmapTo, Ends, wp_bind, wp_get, wp_ite, wp_modify, wp_throw, wp_pure]
  refine ⟨fun _ => ⟨fun _ => trivial, fun _ => ⟨fun _ => trivial, fun _ => ?_⟩⟩, fun _ => .refl k⟩
  have := same_setData k inum (f := fun d => { d with blocks := n }) fun _ => rfl
  refine ⟨⟨rfl, rfl, rfl, this.entries, rfl, rfl, rfl, rfl⟩, fun m => ?_⟩
  simp only [Kernel.setData, update_apply]
  split
  · rename_i hm
    rw [hm]
  · rfl

theorem bmapTo_spec (k : Kernel) (inum n : Nat) : Ends (bmapTo inum n) k fun _ t => Same k t :=
  (bmapTo_mild k inum n).mono fun _ _ h => h.toSame

end Xv6.Files
