import AdvancedXv6.Files.Entries
import AdvancedXv6.Files.LinkSpec

/-! The link counts in the inode cache: which inodes without links are there, and what the programs
of the cache do to the links on the disk. -/

namespace Xv6.Files
open Function Effect

variable {x y : Option Nat} {H H' G G' L L' : List Nat} {k t : Kernel} {i m n : Nat}

def Kernel.disk (k : Kernel) : Disk :=
  ⟨fun n => (k.dinode n).type, fun n => (k.dinode n).nlink, fun n => (k.data n).entries⟩

theorem Same.disk (h : Same k t) : t.disk = k.disk := by
  rw [Kernel.disk, Kernel.disk, h.dinode]
  exact congrArg _ (funext h.entries)

/-- Every inode without links, but `x`, is referred to by an entry that knows of it. -/
structure Cached (x : Option Nat) (H G L : List Nat) (k : Kernel) : Prop where
  inv : Inv .a3 H G L k
  copy : ∀ i < ninode, 0 < (k.inode i).ref → (k.inode i).valid = true →
    (k.inode i).copy.nlink = k.disk.nlink (k.inode i).inum
  kept : ∀ n, k.disk.type n ≠ .free → k.disk.nlink n = 0 → x ≠ some n →
    ∃ i < ninode, 0 < (k.inode i).ref ∧ (k.inode i).inum = n
  stale : ∀ i < ninode, 0 < (k.inode i).ref → (k.inode i).valid = false →
    k.disk.type (k.inode i).inum ≠ .free → x ≠ some (k.inode i).inum → k.disk.nlink (k.inode i).inum ≠ 0
  cwd : ∀ p ∈ k.procs, k.disk.type (k.inode p.cwd).inum ≠ .free

namespace Cached

/-- A change of one entry of the cache and of its inode on the disk. -/
theorem change (h : Cached x H G L k) (hinv : Inv .a3 H' G' L' t) (hi : i < ninode) (hprocs : t.procs = k.procs)
    (hinode : ∀ j ≠ i, t.inode j = k.inode j)
    (hinum : 0 < (k.inode i).ref → (t.inode i).inum = (k.inode i).inum)
    (hid : ∀ j < ninode, j ≠ i → 0 < (k.inode j).ref → (k.inode j).inum ≠ (t.inode i).inum)
    (htype : ∀ m ≠ (t.inode i).inum, t.disk.type m = k.disk.type m)
    (hnlink : ∀ m ≠ (t.inode i).inum, t.disk.nlink m = k.disk.nlink m)
    (hx : ∀ m ≠ (t.inode i).inum, y ≠ some m → x ≠ some m)
    (hcopy : 0 < (t.inode i).ref → (t.inode i).valid = true →
      (t.inode i).copy.nlink = t.disk.nlink (t.inode i).inum)
    (hkept : t.disk.type (t.inode i).inum ≠ .free → t.disk.nlink (t.inode i).inum = 0 →
      y ≠ some (t.inode i).inum → 0 < (t.inode i).ref)
    (hstale : 0 < (t.inode i).ref → (t.inode i).valid = false → t.disk.type (t.inode i).inum ≠ .free →
      y ≠ some (t.inode i).inum → t.disk.nlink (t.inode i).inum ≠ 0)
    (hcwd : (∃ p ∈ k.procs, p.cwd = i) → t.disk.type (t.inode i).inum ≠ .free) : Cached y H' G' L' t := by
  refine ⟨hinv, fun j hj hpos hvalid => ?_, fun m hm hzero hym => ?_, fun j hj hpos hvalid hfree hyj => ?_,
    fun p hp => ?_⟩
  · by_cases hji : j = i
    · subst hji
      exact hcopy hpos hvalid
    · rw [hinode j hji] at hpos hvalid ⊢
      rw [hnlink _ (hid j hj hji hpos)]
      exact h.copy j hj hpos hvalid
  · by_cases hmi : m = (t.inode i).inum
    · rw [hmi] at hm hzero
      exact ⟨i, hi, hkept hm hzero (hmi ▸ hym), hmi.symm⟩
    · rw [htype m hmi] at hm
      rw [hnlink m hmi] at hzero
      obtain ⟨j, hj, hpos, hjm⟩ := h.kept m hm hzero (hx m hmi hym)
      have hji : j ≠ i := by
        rintro rfl
        exact hmi (hjm.symm.trans (hinum hpos).symm)
      refine ⟨j, hj, ?_⟩
      rw [hinode j hji]
      exact ⟨hpos, hjm⟩
  · by_cases hji : j = i
    · subst hji
      exact hstale hpos hvalid hfree hyj
    · rw [hinode j hji] at hpos hvalid hfree hyj ⊢
      have hne := hid j hj hji hpos
      rw [htype _ hne] at hfree
      rw [hnlink _ hne]
      exact h.stale j hj hpos hvalid hfree (hx _ hne hyj)
  · rw [hprocs] at hp
    by_cases hpi : p.cwd = i
    · rw [hpi]
      exact hcwd ⟨p, hp, hpi⟩
    · obtain ⟨hlt, hpos⟩ := h.inv.cwd_pos hp
      rw [hinode _ hpi, htype _ (hid _ hlt hpi hpos)]
      exact h.cwd p hp

/-- A change of one entry of the cache. -/
theorem setInode (h : Cached x H G L k) (f : Inode → Inode) (hinv : Inv .a3 H' G' L' (k.setInode i f))
    (hi : i < ninode) (hinum : (f (k.inode i)).inum = (k.inode i).inum) (hpos : 0 < (k.inode i).ref)
    (hcopy : 0 < (f (k.inode i)).ref → (f (k.inode i)).valid = true →
      (f (k.inode i)).copy.nlink = k.disk.nlink (k.inode i).inum)
    (hkept : k.disk.type (k.inode i).inum ≠ .free → k.disk.nlink (k.inode i).inum = 0 →
      x ≠ some (k.inode i).inum → 0 < (f (k.inode i)).ref)
    (hvalid : (f (k.inode i)).valid = false → (k.inode i).valid = false) :
    Cached x H' G' L' (k.setInode i f) := by
  have hself : (k.setInode i f).inode i = f (k.inode i) := k.setInode_self i f
  refine h.change hinv hi rfl (fun j hj => Kernel.setInode_of_ne hj ..) (fun _ => ?_) (fun j hj hji hposj => ?_)
    (fun _ _ => rfl) (fun _ _ => rfl) (fun _ _ hy => hy) ?_ ?_ ?_ fun hp => ?_
  · rw [hself, hinum]
  · rw [hself, hinum]
    exact h.inv.only hi hpos j hj hji hposj
  · rw [hself, hinum]
    exact hcopy
  · rw [hself, hinum]
    exact hkept
  · rw [hself, hinum]
    exact fun _ hv => h.stale i hi hpos (hvalid hv)
  · obtain ⟨p, hp, rfl⟩ := hp
    rw [hself, hinum]
    exact h.cwd p hp

/-- Nothing that it speaks of changes but the processes. -/
theorem withInv (h : Cached x H G L k) (hinv : Inv .a3 H' G' L' t) (hinode : t.inode = k.inode)
    (hdisk : t.disk = k.disk) (hseats : k.Seats t.procs) : Cached x H' G' L' t := by
  refine ⟨hinv, ?_, ?_, ?_, fun p hp => ?_⟩
  · rw [hinode, hdisk]
    exact h.copy
  · rw [hinode, hdisk]
    exact h.kept
  · rw [hinode, hdisk]
    exact h.stale
  · rw [hinode, hdisk]
    rcases hseats p hp with ⟨q, hq, hqp⟩ | ⟨hvalid, hpos⟩
    · rw [← hqp]
      exact h.cwd q hq
    · have hlt := hinv.cwd p hp
      obtain ⟨htype, -, hfree⟩ := h.inv.cached _ hlt hpos hvalid
      exact fun hf => hfree (htype.trans hf)

theorem grab (h : Cached x H G L k) (hi : i < ninode) (hpos : 0 < (k.inode i).ref) :
    Cached x (i :: H) G L (k.grabbed i) :=
  h.setInode _ (h.inv.grab hi hpos) hi rfl hpos (fun _ => h.copy i hi hpos)
    (fun _ _ _ => Int.lt_add_one_of_le (Int.le_of_lt hpos)) fun hv => hv

theorem recycle (h : Cached x H G L k) (hi : i < ninode) (hzero : (k.inode i).ref = 0)
    (hnew : ∀ j < ninode, 0 < (k.inode j).ref → (k.inode j).inum ≠ n) :
    Cached x (i :: H) G L (k.recycled i n) := by
  have hself : (k.recycled i n).inode i = { k.inode i with dev := rootDev, inum := n, ref := 1, valid := false } :=
    k.setInode_self ..
  refine h.change (h.inv.recycle hi hzero hnew) hi rfl (fun j hj => Kernel.setInode_of_ne hj ..)
    (fun hpos => absurd hzero (Int.ne_of_gt hpos)) (fun j hj _ hpos => ?_)
    (fun _ _ => rfl) (fun _ _ => rfl) (fun _ _ hy => hy) ?_ ?_ ?_ fun hp => ?_
  · rw [hself]
    exact hnew j hj hpos
  · rw [hself]
    exact fun _ hv => absurd hv Bool.false_ne_true
  · rw [hself]
    exact fun _ _ _ => Int.one_pos
  · rw [hself]
    intro _ _ hfree hxn hlinks
    obtain ⟨j, hj, hpos, hjn⟩ := h.kept n hfree hlinks hxn
    exact hnew j hj hpos hjn
  · obtain ⟨p, hp, rfl⟩ := hp
    exact absurd hzero (Int.ne_of_gt (h.inv.cwd_pos hp).2)

theorem lockAt (h : Cached x H G L k) (hi : i < ninode) (hpos : 0 < (k.inode i).ref)
    (hfree : (k.inode i).valid = false → (k.dinode (k.inode i).inum).type ≠ .free) :
    Cached x H G (i :: L) (k.lockedAt i) := by
  refine h.setInode _ (h.inv.lockAt hi hpos hfree) hi rfl hpos (fun _ _ => ?_) (fun _ _ _ => hpos)
    fun hv => absurd hv.symm Bool.false_ne_true
  dsimp only
  split
  · rename_i hv
    exact h.copy i hi hpos hv
  · rfl

theorem unlock (h : Cached x H G L k) (hi : i ∈ L) (hL : ∀ j, j ∈ L' ↔ j ∈ L ∧ j ≠ i) :
    Cached x H G L' (k.unlockedAt i) := by
  obtain ⟨hlt, -, hpos⟩ := h.inv.lock i hi
  exact h.setInode _ (h.inv.unlock hi hL) hlt rfl hpos (h.copy i hlt) (fun _ _ _ => hpos) fun hv => hv

end Cached

theorem Kernel.dropped_kept (h : ¬k.Unused i) :
    k.dropped i = k.setInode i fun n => { n with locked := false, ref := n.ref - 1 } := by
  rw [Kernel.dropped, if_neg h, Kernel.released, if_neg h]

/-- The inode that `iput` frees has no links. -/
theorem Kernel.disk_dropped (h : k.Unused i) (hv : k.version = .a3) :
    (k.dropped i).disk = k.disk.put (k.inode i).inum .free [] := by
  have hzero := h.2.1
  have htype : (fun n => ((k.dropped i).dinode n).type) =
      update (fun n => (k.dinode n).type) (k.inode i).inum .free := by
    funext n
    simp only [Kernel.dropped, Kernel.released, if_pos h, update_apply]
    split <;> rfl
  have hnlink : (fun n => ((k.dropped i).dinode n).nlink) =
      update (fun n => (k.dinode n).nlink) (k.inode i).inum 0 := by
    funext n
    simp only [Kernel.dropped, Kernel.released, if_pos h, update_apply, hv]
    split
    · exact hzero
    · rfl
  have hentries : (fun n => ((k.dropped i).data n).entries) =
      update (fun n => (k.data n).entries) (k.inode i).inum [] := by
    funext n
    simp only [Kernel.dropped, if_pos h, update_apply]
    split <;> rfl
  rw [Kernel.disk, htype, hnlink, hentries, Disk.put, Kernel.disk]

namespace Cached

/-- A reference is dropped: an inode without links is freed with the last one. -/
theorem drop (h : Cached x (i :: H) G L k) (hl : i ∉ L) : Cached x H G L (k.dropped i) := by
  have hinv := h.inv.drop hl
  have hi := h.inv.held i List.mem_cons_self
  have hpos := h.inv.pos_of_held List.mem_cons_self
  by_cases hun : k.Unused i
  · have hself : (k.dropped i).inode i = { k.inode i with
        locked := false, ref := (k.inode i).ref - 1, valid := false, copy := { (k.inode i).copy with type := .free } } := by
      simp only [Kernel.dropped, Kernel.released, if_pos hun, Kernel.setInode_self]
    have hdisk := Kernel.disk_dropped hun h.inv.version
    have hzero : (k.inode i).ref - 1 = 0 := by
      rw [hun.2.2]
      rfl
    refine h.change hinv hi ?_ (fun j hj => ?_) (fun _ => ?_) (fun j hj hji hposj => ?_) (fun m hm => ?_)
      (fun m hm => ?_) (fun _ _ hy => hy) ?_ ?_ ?_ fun hp => ?_
    · rw [Kernel.procs, Kernel.dropped_proc, Kernel.dropped_others, Kernel.procs]
    · simp only [Kernel.dropped, Kernel.released, if_pos hun, Kernel.setInode_of_ne hj]
    · rw [hself]
    · rw [hself]
      exact h.inv.only hi hpos j hj hji hposj
    · rw [hself] at hm
      rw [hdisk, Disk.put_type_of_ne hm]
    · rw [hself] at hm
      rw [hdisk, Disk.put_nlink_of_ne hm]
    · rw [hself]
      exact fun _ hv => absurd hv Bool.false_ne_true
    · rw [hself, hdisk]
      exact fun hfree => absurd (Disk.put_type ..) hfree
    · rw [hself, hdisk]
      exact fun _ _ hfree => absurd (Disk.put_type ..) hfree
    · obtain ⟨p, hp, rfl⟩ := hp
      -- the current directory is a reference besides the one that is dropped
      have hrefs := h.inv.refs p.cwd hi
      have huse : 0 < k.procs.countP fun q => decide (q.cwd = p.cwd) :=
        List.countP_pos_iff.mpr ⟨p, hp, decide_eq_true rfl⟩
      rw [List.count_cons_self, Kernel.uses] at hrefs
      omega
  · rw [Kernel.dropped_kept hun] at hinv ⊢
    refine h.setInode _ hinv hi rfl hpos (fun _ hv => h.copy i hi hpos hv) (fun hfree hzero hx => ?_) fun hv => hv
    have hne : (k.inode i).ref ≠ 1 := by
      intro hone
      cases hv : (k.inode i).valid with
      | true => exact hun ⟨hv, (h.copy i hi hpos hv).trans hzero, hone⟩
      | false => exact h.stale i hi hpos hv hfree hx hzero
    dsimp only
    omega

end Cached

theorem Kernel.disk_updated (h : Inv .a3 H G L k) (hi : i ∈ L) {f : Dinode → Dinode} (htype : ∀ d, (f d).type = d.type) :
    (k.updated i f).disk = k.disk.setNlink (k.inode i).inum (f (k.inode i).copy).nlink := by
  obtain ⟨hlt, hvalid, hpos⟩ := h.lock i hi
  obtain ⟨hct, -, -⟩ := h.cached i hlt hpos hvalid
  have hty : (fun n => ((k.updated i f).dinode n).type) = fun n => (k.dinode n).type := by
    funext n
    simp only [Kernel.updated, update_apply]
    split
    · rename_i hn
      rw [Dinode.pack, htype, hct, hn]
    · rfl
  have hnlink : (fun n => ((k.updated i f).dinode n).nlink) =
      update (fun n => (k.dinode n).nlink) (k.inode i).inum (f (k.inode i).copy).nlink := by
    funext n
    simp only [Kernel.updated, update_apply, h.version]
    split <;> rfl
  rw [Kernel.disk, hty, hnlink]
  rfl

/-- A directory of the cache is written to. -/
theorem Cached.disk_entered (h : Cached x H G L k) (hi : i ∈ L) (n : Nat) (e : Dirent) :
    (k.entered i n e).disk = k.disk.enter (k.inode i).inum n e := by
  obtain ⟨hlt, hvalid, hpos⟩ := h.inv.lock i hi
  have hu := Kernel.disk_updated h.inv hi (f := id) fun _ => rfl
  have hself : k.disk.setNlink (k.inode i).inum (k.inode i).copy.nlink = k.disk := by
    rw [h.copy i hlt hpos hvalid, Disk.setNlink, update_eq_self]
  have hflush : ({ k with dinode := update k.dinode (k.inode i).inum ((k.inode i).copy.pack k.version) } : Kernel).disk =
      k.disk := by
    rw [← hself]
    exact hu
  have hentries : ∀ es, (fun n => (update k.data (k.inode i).inum
      { k.data (k.inode i).inum with entries := es } n).entries) = update k.disk.entries (k.inode i).inum es := by
    intro es
    funext n
    simp only [update_apply]
    split <;> rfl
  rw [Kernel.entered, Disk.enter, Disk.place]
  dsimp only
  by_cases hn : n < (k.data (k.inode i).inum).entries.length
  · have hn' : n < (k.disk.entries (k.inode i).inum).length := hn
    rw [if_pos hn, if_pos hn', Kernel.disk, Kernel.setData, hentries]
    rfl
  · have hn' : ¬n < (k.disk.entries (k.inode i).inum).length := hn
    rw [if_neg hn, if_neg hn', Kernel.disk, Kernel.setData]
    dsimp only
    rw [hentries]
    exact congrArg (fun D : Disk => (⟨D.type, D.nlink, _⟩ : Disk)) hflush

theorem Kernel.disk_allocated (k : Kernel) (n : Nat) (type : Kind) :
    (k.allocated n type).disk = k.disk.put n type [] := by
  have htype : (fun m => ((k.allocated n type).dinode m).type) = update (fun m => (k.dinode m).type) n type := by
    funext m
    simp only [Kernel.allocated, update_apply]
    split <;> rfl
  have hnlink : (fun m => ((k.allocated n type).dinode m).nlink) = update (fun m => (k.dinode m).nlink) n 0 := by
    funext m
    simp only [Kernel.allocated, update_apply]
    split <;> rfl
  have hentries : (fun m => ((k.allocated n type).data m).entries) = update (fun m => (k.data m).entries) n [] := by
    funext m
    simp only [Kernel.allocated, Kernel.setData, update_apply]
    split <;> rfl
  rw [Kernel.disk, htype, hnlink, hentries, Disk.put, Kernel.disk]

namespace Cached

/-- A locked inode is changed and written through. -/
theorem update (h : Cached x H G L k) (hi : i ∈ L) {f : Dinode → Dinode} (htype : ∀ d, (f d).type = d.type)
    (hperm : ∀ d, (f d).perm = d.perm) (hx : ∀ m ≠ (k.inode i).inum, y ≠ some m → x ≠ some m) :
    Cached y H G L (k.updated i f) := by
  obtain ⟨hlt, hvalid, hpos⟩ := h.inv.lock i hi
  have hself : (k.updated i f).inode i = { k.inode i with copy := f (k.inode i).copy } := update_self ..
  have hdisk := Kernel.disk_updated h.inv hi htype
  refine h.change (h.inv.updated hi htype hperm) hlt rfl (fun j hj => update_of_ne hj ..) (fun _ => ?_)
    (fun j hj hji hposj => ?_) (fun m _ => ?_) (fun m hm => ?_) ?_ ?_ ?_ ?_ fun hp => ?_
  · rw [hself]
  · rw [hself]
    exact h.inv.only hlt hpos j hj hji hposj
  · rw [hdisk]
    rfl
  · rw [hself] at hm
    rw [hdisk, Disk.setNlink_of_ne hm]
  · rw [hself]
    exact hx
  · rw [hself, hdisk]
    exact fun _ _ => (Disk.setNlink_self ..).symm
  · rw [hself]
    exact fun _ _ _ => hpos
  · rw [hself]
    exact fun _ hv => absurd hvalid (Bool.eq_false_iff.mp hv)
  · obtain ⟨p, hp, rfl⟩ := hp
    rw [hself, hdisk]
    exact h.cwd p hp

theorem enter (h : Cached x H G L k) (hi : i ∈ L) (n : Nat) (e : Dirent) : Cached x H G L (k.entered i n e) := by
  have hdisk := h.disk_entered hi n e
  have hinode : (k.entered i n e).inode = k.inode := by
    rw [Kernel.entered]
    dsimp only
    split <;> rfl
  have hprocs : (k.entered i n e).procs = k.procs := by
    rw [Kernel.entered]
    dsimp only
    split <;> rfl
  refine ⟨h.inv.enter hi n e, ?_, ?_, ?_, ?_⟩
  · rw [hinode, hdisk]
    exact h.copy
  · rw [hinode, hdisk]
    exact h.kept
  · rw [hinode, hdisk]
    exact h.stale
  · rw [hinode, hdisk, hprocs]
    exact h.cwd

/-- The new inode has no links, and no entry of the cache yet. -/
theorem alloc (h : Cached none H G L k) (hn : k.disk.type n = .free) (type : Kind) :
    Cached (some n) H G L (k.allocated n type) := by
  have hdisk := k.disk_allocated n type
  refine ⟨h.inv.alloc hn type, fun i hi hpos hvalid => ?_, fun m hm hzero hmn => ?_,
    fun i hi hpos hvalid hfree hin => ?_, fun p hp => ?_⟩
  · have hne : (k.inode i).inum ≠ n := by
      intro hin
      obtain ⟨htype, -, hfree⟩ := h.inv.cached i hi hpos hvalid
      rw [hin] at htype
      exact hfree (htype.trans hn)
    rw [hdisk]
    exact (h.copy i hi hpos hvalid).trans (Disk.put_nlink_of_ne hne ..).symm
  · have hne : m ≠ n := fun hmn' => hmn (congrArg some hmn'.symm)
    rw [hdisk, Disk.put_type_of_ne hne] at hm
    rw [hdisk, Disk.put_nlink_of_ne hne] at hzero
    exact h.kept m hm hzero (by simp)
  · have hne : (k.inode i).inum ≠ n := fun hmn => hin (congrArg some hmn.symm)
    rw [hdisk] at hfree ⊢
    have hfree : k.disk.type (k.inode i).inum ≠ .free := by
      rwa [← Disk.put_type_of_ne hne]
    have := h.stale i hi hpos hvalid hfree (by simp)
    rwa [← Disk.put_nlink_of_ne hne] at this
  · have hcwd := h.cwd p hp
    have hne : (k.inode p.cwd).inum ≠ n := fun hcn => hcwd (hcn ▸ hn)
    rw [hdisk]
    exact fun hf => hcwd ((Disk.put_type_of_ne hne ..).symm.trans hf)

end Cached

theorem steady_cached (x : Option Nat) : Steady .a3 (Cached x) where
  inv h := h.inv
  same h hs := h.withInv (hs.inv h.inv) hs.inode hs.disk (by
    rw [Kernel.procs, hs.proc, hs.others]
    exact Kernel.seats _)
  table h hseats hinv := h.withInv hinv rfl rfl hseats
  consult i h := h.withInv (h.inv.consult i) rfl rfl (Kernel.seats _)
  swap h := h.withInv ((steady_inv .a3).swap h.inv) rfl rfl (Kernel.seats _)
  grab h := h.grab
  recycle h := h.recycle
  lock h hi hpos _ := h.lockAt hi hpos
  unlock h := h.unlock
  drop h := h.drop
  flush h hi := h.update hi (fun _ => rfl) (fun _ => rfl) fun _ _ hy => hy

/-! ### The links -/

/-- The disk without a link that is counted before, or after, it is there. -/
def Disk.minus (D : Disk) (c : Option Nat) : Disk :=
  { D with nlink := fun n => if c = some n then toShort (D.nlink n - 1) else D.nlink n }

theorem Disk.minus_none (D : Disk) : D.minus none = D := by
  simp only [minus, reduceCtorEq, if_false]

theorem Disk.minus_some (D : Disk) (n : Nat) : D.minus (some n) = D.setNlink n (toShort (D.nlink n - 1)) := by
  rw [minus, setNlink]
  congr 1
  funext m
  rw [update_apply]
  by_cases hm : m = n
  · rw [hm, if_pos rfl, if_pos rfl]
  · rw [if_neg hm, if_neg fun hn => hm (Option.some.inj hn).symm]

theorem Disk.minus_put {D : Disk} {c : Option Nat} (hc : c ≠ some n) (type : Kind) (es : List Dirent) :
    (D.put n type es).minus c = (D.minus c).put n type es := by
  have hnlink : ((D.put n type es).minus c).nlink = ((D.minus c).put n type es).nlink := by
    funext m
    by_cases hm : m = n
    · subst hm
      rw [put_nlink, minus]
      dsimp only
      rw [if_neg hc, put_nlink]
    · rw [put_nlink_of_ne hm, minus, minus]
      dsimp only
      rw [put_nlink_of_ne hm]
  exact congrArg (fun l => (⟨_, l, _⟩ : Disk)) hnlink

/-- The links are as they should be, but that the inode `c` counts one more than it has. -/
structure Linked (c : Option Nat) (H G L : List Nat) (k : Kernel) : Prop extends Cached none H G L k where
  tree : (k.disk.minus c).Tree
  ahead : ∀ n, c = some n → k.disk.nlink n ≠ 0

namespace Linked

variable {c : Option Nat}

theorem keep (h : Linked c H G L k) (ht : Cached none H' G' L' t) (hdisk : t.disk = k.disk) :
    Linked c H' G' L' t := by
  refine ⟨ht, ?_, ?_⟩
  · rw [hdisk]
    exact h.tree
  · rw [hdisk]
    exact h.ahead

/-- The inode that is freed has no names. -/
theorem drop (h : Linked c (i :: H) G L k) (hl : i ∉ L) : Linked c H G L (k.dropped i) := by
  by_cases hun : k.Unused i
  · have hi := h.inv.held i List.mem_cons_self
    have hpos := h.inv.pos_of_held List.mem_cons_self
    have hdisk := Kernel.disk_dropped hun h.inv.version
    obtain ⟨htype, -, hfree⟩ := h.inv.cached i hi hpos hun.1
    have hzero : k.disk.nlink (k.inode i).inum = 0 := (h.copy i hi hpos hun.1).symm.trans hun.2.1
    have hc : c ≠ some (k.inode i).inum := fun hc => h.ahead _ hc hzero
    have hty : (k.disk.minus c).type (k.inode i).inum ≠ .free := fun hf => hfree (htype.trans hf)
    have hnl : (k.disk.minus c).nlink (k.inode i).inum = 0 := (if_neg hc).trans hzero
    refine ⟨h.toCached.drop hl, ?_, fun n hn => ?_⟩
    · rw [hdisk, Disk.minus_put hc]
      refine h.tree.put (h.tree.bound _ hty) (fun hlive => ?_) (h.tree.free_names hty hnl) (fun _ => rfl)
        fun hd => absurd hd (by decide)
      have := hlive.2
      omega
    · have hne : n ≠ (k.inode i).inum := fun hni => hc (hni ▸ hn)
      rw [hdisk, Disk.put_nlink_of_ne hne]
      exact h.ahead n hn
  · refine h.keep (h.toCached.drop hl) ?_
    rw [Kernel.dropped_kept hun]
    rfl

end Linked

theorem steady_linked (c : Option Nat) : Steady .a3 (Linked c) where
  inv h := h.inv
  same h hs := h.keep ((steady_cached none).same h.toCached hs) hs.disk
  table h hseats hinv := h.keep ((steady_cached none).table h.toCached hseats hinv) rfl
  consult i h := h.keep ((steady_cached none).consult i h.toCached) rfl
  swap h := h.keep ((steady_cached none).swap h.toCached) rfl
  grab h hi hpos := h.keep (h.toCached.grab hi hpos) rfl
  recycle h hi hzero hnew := h.keep (h.toCached.recycle hi hzero hnew) rfl
  lock h hi hpos _ hfree := h.keep (h.toCached.lockAt hi hpos hfree) rfl
  unlock h hi hL := h.keep (h.toCached.unlock hi hL) rfl
  drop h := h.drop
  flush h hi := by
    obtain ⟨hlt, hvalid, hpos⟩ := h.inv.lock _ hi
    refine h.keep ((steady_cached none).flush h.toCached hi) ?_
    rw [Kernel.disk_updated h.inv hi (f := id) fun _ => rfl]
    exact (congrArg (Disk.setNlink _ _) (h.copy _ hlt hpos hvalid)).trans
      (congrArg (fun l => (⟨_, l, _⟩ : Disk)) (update_eq_self ..))

end Xv6.Files
