import AdvancedXv6.Files.Dir
import AdvancedXv6.Files.InodeSpec

/-! Directories and path names: the references that they take and drop. -/

namespace Xv6.Files
open Function Effect

variable {v : Version} {H G L : List Nat} {k t : Kernel} {i dp n : Nat}

/-! ### Entries -/

/-- The entry at index `n` is overwritten, or appended and the inode written. -/
def Kernel.entered (k : Kernel) (dp n : Nat) (e : Dirent) : Kernel :=
  let inum := (k.inode dp).inum
  if n < (k.data inum).entries.length then
    k.setData inum fun d => { d with entries := d.entries.set n e }
  else { k.setData inum fun d => { d with entries := d.entries ++ [e] } with
    dinode := update k.dinode inum ((k.inode dp).copy.pack k.version) }

/-- What `writeEntry` does, if it returns, besides the allocation of blocks. -/
theorem writeEntry_state (k : Kernel) (dp n : Nat) (e : Dirent) (panic : Panic) :
    Ends (writeEntry dp n e panic) k fun _ t => ∃ u, Same k u ∧ t = u.entered dp n e := by
  simp only [writeEntry, iupdate, Ends, wp_bind, wp_get, wp_ite, wp_modify, wp_throw]
  refine ⟨fun _ => trivial, fun _ => (bmapTo_spec k _ _).mono fun _ u hu => ⟨fun hn => ?_, fun hn => ?_⟩⟩
  · refine ⟨u, hu, ?_⟩
    rw [Kernel.entered, hu.inode, if_pos hn]
  · refine ⟨u, hu, ?_⟩
    rw [Kernel.entered, hu.inode, if_neg hn]
    simp only [Kernel.setData, hu.inode]

theorem Inv.enter (h : Inv v H G L k) (hdp : dp ∈ L) (n : Nat) (e : Dirent) :
    Inv v H G L (k.entered dp n e) := by
  rw [Kernel.entered]
  dsimp only
  split
  · exact h.withData _ _ _
  · have := (h.updated hdp (fun d => rfl : ∀ d : Dinode, (id d).type = d.type) fun _ => rfl).withData
      (update k.data (k.inode dp).inum { k.data (k.inode dp).inum with
        entries := (k.data (k.inode dp).inum).entries ++ [e] }) k.free k.outstanding
    simp only [Kernel.updated, Kernel.setInode, id_eq, update_eq_self] at this
    exact this

/-! ### Look-up -/

theorem mem_locks (hi : i ∉ L) (j : Nat) : j ∈ L ↔ j ∈ i :: L ∧ j ≠ i := by
  rw [List.mem_cons]
  constructor
  · intro hj
    exact ⟨.inr hj, fun h => hi (h ▸ hj)⟩
  · rintro ⟨hj, hne⟩
    exact hj.resolve_left hne

/-- A current directory is in use. -/
theorem Inv.cwd_pos (h : Inv v H G L k) {p : Proc} (hp : p ∈ k.procs) :
    p.cwd < ninode ∧ 0 < (k.inode p.cwd).ref := by
  have hlt := h.cwd p hp
  refine ⟨hlt, ?_⟩
  rw [h.refs p.cwd hlt]
  have : 0 < k.procs.countP fun q => decide (q.cwd = p.cwd) :=
    List.countP_pos_iff.mpr ⟨p, hp, decide_eq_true rfl⟩
  have : 0 < k.uses p.cwd := Nat.add_pos_right _ this
  omega

namespace Walks
variable {J : List Nat → List Nat → List Nat → Kernel → Prop} (hJ : Walks v J)
include hJ

theorem dirlookup (h : J H G L k) (hdp : dp ∈ L) (name : Name) :
    Ends (dirlookup dp name) k fun r t => match r with
      | none => J H G L t
      | some (i, _) => J (i :: H) G L t := by
  have hdev : (k.inode dp).dev = rootDev := by
    obtain ⟨H', -, hinv⟩ := hJ.inv h
    obtain ⟨hlt, -, hpos⟩ := hinv.lock dp hdp
    exact hinv.dev dp hlt hpos
  rw [Files.dirlookup, ends_get_bind]
  refine .ite (fun _ => .throw _) fun _ => ?_
  dsimp only
  split
  · refine (bmapTo_mild k _ _).bind fun _ t ht => ?_
    exact .pure (hJ.mild h ht)
  · refine (bmapTo_mild k _ _).bind fun _ t ht => ?_
    rw [hdev]
    exact (hJ.iget (hJ.mild h ht) _).bind fun i u hi => .pure hi.1

theorem namexLoop (np : Bool) (names : List Name) (h : J (i :: H) G L k) :
    Ends (namexLoop np i names) k fun r t => match r with
      | none => J H G L t
      | some (j, _) => J (j :: H) G L t := by
  induction names generalizing i k with
  | nil =>
    rw [Files.namexLoop]
    refine .ite (fun _ => ?_) fun _ => .pure h
    exact (hJ.iput h).bind fun _ t ht => .pure ht.1
  | cons name names ih =>
    rw [Files.namexLoop]
    refine (hJ.ilock h (hJ.held h)).bind fun _ t ht => ?_
    obtain ⟨ht, hi, -⟩ := ht
    rw [ends_get_bind]
    refine .ite (fun _ => ?_) fun _ => ?_
    · exact (hJ.iunlockput ht List.mem_cons_self (mem_locks hi)).bind fun _ u hu => .pure hu
    refine .ite (fun _ => ?_) fun _ => ?_
    · exact (hJ.iunlock ht List.mem_cons_self (mem_locks hi)).bind fun _ u hu => .pure hu.1
    refine (hJ.dirlookup ht List.mem_cons_self name).bind fun r u hu => ?_
    cases r with
    | none => exact (hJ.iunlockput hu List.mem_cons_self (mem_locks hi)).bind fun _ w hw => .pure hw
    | some r =>
      refine (hJ.iunlockput (hJ.swap hu) List.mem_cons_self (mem_locks hi)).bind fun _ w hw => ?_
      exact ih hw

theorem namex (h : J H G L k) (path : Name) (np : Bool) : Ends (namex path np) k fun r t =>
    match r with
    | none => J H G L t
    | some (j, _) => J (j :: H) G L t := by
  unfold Files.namex
  refine .ite (fun _ => ?_) fun _ => ?_
  · exact (hJ.iget h rootIno).bind fun i t ht => hJ.namexLoop np _ ht.1
  · rw [ends_get_bind]
    obtain ⟨H', -, hinv⟩ := hJ.inv h
    obtain ⟨hlt, hpos⟩ := hinv.cwd_pos List.mem_cons_self
    refine (hJ.idup h hlt hpos).bind fun i t ht => ?_
    rw [ht.1]
    exact hJ.namexLoop np _ ht.2.1

theorem namei (h : J H G L k) (path : Name) : Ends (namei path) k fun r t =>
    match r with
    | none => J H G L t
    | some i => J (i :: H) G L t := by
  refine (hJ.namex h path false).bind fun r t ht => .pure ?_
  cases r with
  | none => exact ht
  | some r => exact ht

end Walks

section Steady
variable {J : List Nat → List Nat → List Nat → Kernel → Prop} (hJ : Steady v J)
include hJ

theorem dirlookup_spec (h : J H G L k) (hdp : dp ∈ L) (name : Name) :
    Ends (dirlookup dp name) k fun r t => match r with
      | none => J H G L t
      | some (i, _) => J (i :: H) G L t := hJ.walks.dirlookup h hdp name

theorem namex_spec (h : J H G L k) (path : Name) (np : Bool) : Ends (namex path np) k fun r t =>
    match r with
    | none => J H G L t
    | some (j, _) => J (j :: H) G L t := hJ.walks.namex h path np

theorem namei_spec (h : J H G L k) (path : Name) : Ends (namei path) k fun r t =>
    match r with
    | none => J H G L t
    | some i => J (i :: H) G L t := hJ.walks.namei h path

end Steady

/-- Changes of inodes and directories keep the property, whatever they are. -/
structure Stable (v : Version) (J : List Nat → List Nat → List Nat → Kernel → Prop) : Prop
    extends Steady v J where
  update : ∀ {H G L k i} {f : Dinode → Dinode}, J H G L k → i ∈ L → (∀ d, (f d).type = d.type) →
    (∀ d, (f d).perm = d.perm) → J H G L (k.updated i f)
  enter : ∀ {H G L k dp} (n e), J H G L k → dp ∈ L → J H G L (k.entered dp n e)
  alloc : ∀ {H G L k n type}, J H G L k → (k.dinode n).type = .free → type ≠ .free →
    J H G L (k.allocated n type)

theorem stable_inv (v : Version) : Stable v (Inv v) where
  toSteady := steady_inv v
  update h hi := h.updated hi
  enter n e h hdp := h.enter hdp n e
  alloc h hn _ := h.alloc hn _

/-- Changes of link counts and of directories keep the property. -/
structure Linking (v : Version) (J : List Nat → List Nat → List Nat → Kernel → Prop) : Prop
    extends Steady v J where
  count : ∀ {H G L k i} (d : Int), J H G L k → i ∈ L →
    J H G L (k.updated i fun e => { e with nlink := toShort (e.nlink + d) })
  enter : ∀ {H G L k dp} (n e), J H G L k → dp ∈ L → J H G L (k.entered dp n e)

theorem Stable.linking {J : List Nat → List Nat → List Nat → Kernel → Prop} (hJ : Stable v J) : Linking v J where
  toSteady := hJ.toSteady
  count _ h hi := hJ.update h hi (fun _ => rfl) fun _ => rfl
  enter n e h := hJ.enter n e h

section Linking
variable {J : List Nat → List Nat → List Nat → Kernel → Prop} (hJ : Linking v J)
include hJ

theorem writeEntry_spec (h : J H G L k) (hdp : dp ∈ L) (n : Nat) (e : Dirent) (panic : Panic) :
    Ends (writeEntry dp n e panic) k fun _ t => J H G L t := by
  refine (writeEntry_state k dp n e panic).mono fun _ t ht => ?_
  obtain ⟨u, hu, rfl⟩ := ht
  exact hJ.enter n e (hJ.same h hu) hdp

theorem dirlink_spec (h : J H G L k) (hdp : dp ∈ L) (name : Name) (inum : Nat) :
    Ends (dirlink dp name inum) k fun _ t => J H G L t := by
  refine (dirlookup_spec hJ.toSteady h hdp name).bind fun r t ht => ?_
  cases r with
  | some r => exact (iput_spec hJ.toSteady ht).bind fun _ u hu => .pure hu.1
  | none =>
    rw [ends_get_bind]
    exact (writeEntry_spec hJ ht hdp _ _ _).bind fun _ u hu => .pure hu

end Linking

end Xv6.Files
