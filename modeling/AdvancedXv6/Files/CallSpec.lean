import AdvancedXv6.Files.TableSpec

/-! The system calls that do not change links and permissions: what the cache and the table keep,
they keep. A call of `exec` that passes the permission check keeps a reference for ever. -/

namespace Xv6.Files
open Function Effect

variable {v : Version} {H G L : List Nat} {k t : Kernel} {i f g : Nat}

/-! ### The current directory -/

def Kernel.setCwd (k : Kernel) (i : Nat) : Kernel := { k with proc := { k.proc with cwd := i } }

theorem Kernel.dropped_setCwd (k : Kernel) (c i : Nat) : (k.dropped c).setCwd i = (k.setCwd i).dropped c := by
  rw [Kernel.setCwd, Kernel.dropped_proc]
  exact k.dropped_setProc c _

theorem Same.setCwd (h : Same k t) (i : Nat) : Same (k.setCwd i) (t.setCwd i) :=
  ⟨h.inode, h.file, h.dinode, h.entries, by rw [Kernel.setCwd, Kernel.setCwd, h.proc], h.others, h.notes,
    h.version⟩

/-- The reference becomes the current directory, and the kernel holds the old one. -/
theorem Inv.setCwd (h : Inv v (i :: H) G L k) : Inv v (k.proc.cwd :: H) G L (k.setCwd i) := by
  have hold := h.cwd k.proc List.mem_cons_self
  refine h.setProcs (List.forall_mem_cons.mpr ⟨?_, ?_⟩) (List.forall_mem_cons.mpr ⟨?_, ?_⟩)
    (List.forall_mem_cons.mpr ⟨hold, h.erase_held⟩) (fun j => ?_) fun f => rfl
  · exact h.held i List.mem_cons_self
  · exact fun p hp => h.cwd p (List.mem_cons_of_mem _ hp)
  · exact h.ofile k.proc List.mem_cons_self
  · exact fun p hp => h.ofile p (List.mem_cons_of_mem _ hp)
  · simp only [Kernel.procs, List.countP_cons, List.count_cons, beq_iff_eq, decide_eq_true_eq]
    omega

theorem Kernel.setFile_type (k : Kernel) {g : File → File} (hg : (g (k.file f)).type = (k.file f).type) :
    ((k.setFile f g).file i).type = (k.file i).type := by
  by_cases hif : i = f
  · rw [hif, Kernel.setFile_self, hg]
  · rw [Kernel.setFile_of_ne hif]

/-! ### Permissions -/

/-- The bits of a locked inode are the inverse of the mode in effect. -/
theorem Inv.perm_bit (h : Inv v H G L k) (hi : i ∈ L) {bit : Nat} (hbit : bit < 3) :
    (k.inode i).copy.perm.testBit bit = !(granted k.notes (k.inode i).inum).testBit bit := by
  obtain ⟨hlt, hvalid, hpos⟩ := h.lock i hi
  obtain ⟨htype, hperm, hfree⟩ := h.cached i hlt hpos hvalid
  rw [hperm, h.perm _ (htype ▸ hfree), Nat.testBit_and, Nat.testBit_xor]
  have : Nat.testBit 7 bit = true := (Nat.testBit_two_pow_sub_one 3 bit).trans (decide_eq_true hbit)
  simp [this]

/-- The state in a transaction. -/
def Kernel.begun (k : Kernel) : Kernel := { k with outstanding := k.outstanding + 1 }

theorem Kernel.same_begun (k : Kernel) : Same k k.begun :=
  ⟨rfl, rfl, rfl, fun _ => rfl, rfl, rfl, rfl, rfl⟩

/-- The path resolves to an inode that may be executed. -/
def Kernel.Runnable (k : Kernel) (path : Name) : Prop :=
  ∃ i t, namei path k.begun = .ok (some i) t ∧
    (granted t.notes (t.inode i).inum).testBit 2 = true

section Steady
variable {J : List Nat → List Nat → List Nat → Kernel → Prop} (hJ : Steady v J)
include hJ

theorem sysRead_spec (h : J H G L k) (fd : Int) (n : Option Nat) (io : Int) :
    Ends (sysRead fd n io) k fun _ t => J H G L t := by
  refine (argfd_spec k fd).bind fun r t ht => ?_
  obtain ⟨rfl, hr⟩ := ht
  split
  · rename_i f n
    obtain ⟨-, hofile⟩ := hr f rfl
    obtain ⟨hf, -⟩ := (hJ.inv h).ofile_pos List.mem_cons_self hofile
    refine (forbidden_spec hJ h hf 0).bind fun bad u hu => ?_
    refine .ite (fun _ => .pure hu) fun _ => ?_
    exact (fileread_spec hJ hu hf n io).bind fun _ w hw => .pure hw
  · exact .pure h

theorem sysWrite_spec (h : J H G L k) (fd : Int) (src : Option (List UInt8)) (io : Int) :
    Ends (sysWrite fd src io) k fun _ t => J H G L t := by
  refine (argfd_spec k fd).bind fun r t ht => ?_
  obtain ⟨rfl, hr⟩ := ht
  split
  · rename_i f src
    obtain ⟨-, hofile⟩ := hr f rfl
    obtain ⟨hf, -⟩ := (hJ.inv h).ofile_pos List.mem_cons_self hofile
    refine (forbidden_spec hJ h hf 1).bind fun bad u hu => ?_
    refine .ite (fun _ => .pure hu) fun _ => ?_
    exact (filewrite_spec hJ hu hf src io).bind fun _ w hw => .pure hw
  · exact .pure h

theorem sysFstat_spec (h : J H G L k) (fd : Int) (st : Bool) :
    Ends (sysFstat fd st) k fun _ t => J H G L t := by
  refine (argfd_spec k fd).bind fun r t ht => ?_
  obtain ⟨rfl, hr⟩ := ht
  cases r with
  | none => exact .pure h
  | some f =>
    obtain ⟨-, hofile⟩ := hr f rfl
    obtain ⟨hf, -⟩ := (hJ.inv h).ofile_pos List.mem_cons_self hofile
    refine .ite (fun _ => ?_) fun _ => .pure h
    refine (filestat_spec hJ h hf).bind fun ok u hu => ?_
    exact .ite (fun _ => .pure hu) fun _ => .pure hu

theorem sysChdir_spec (h : J H G L k) (path : Option Name) :
    Ends (sysChdir path) k fun _ t => J H G L t := by
  refine (beginOp_spec k).bind fun _ t ht => ?_
  have ht := hJ.same h ht
  cases path with
  | none => exact (endOp_spec t).bind fun _ u hu => .pure (hJ.same ht hu)
  | some path =>
    refine (namei_spec hJ ht path).bind fun r u hu => ?_
    cases r with
    | none => exact (endOp_spec u).bind fun _ w hw => .pure (hJ.same hu hw)
    | some i =>
      have hlt := (hJ.inv hu).held i List.mem_cons_self
      refine (ilock_spec hJ hu hlt).bind fun _ w hw => ?_
      obtain ⟨hw, hi, -⟩ := hw
      rw [ends_get_bind]
      refine .ite (fun _ => ?_) fun _ => ?_
      · refine (iunlockput_spec hJ hw List.mem_cons_self (mem_locks hi)).bind fun _ x hx => ?_
        exact (endOp_spec x).bind fun _ y hy => .pure (hJ.same hx hy)
      · refine (iunlock_spec hJ hw List.mem_cons_self (mem_locks hi)).bind fun _ x hx => ?_
        rw [ends_get_bind]
        refine (iput_state x x.proc.cwd).bind fun _ y hy => ?_
        obtain ⟨rfl, hfree⟩ := hy
        refine (endOp_spec _).bind fun _ z hz => ?_
        rw [ends_modify_bind]
        refine .pure (hJ.same ?_ (hz.setCwd i))
        have hc := (hJ.inv hx.1).setCwd
        rw [Kernel.dropped_setCwd]
        have hvalid : (x.inode i).valid = true ∧ 0 < (x.inode i).ref := by
          rw [hx.2, Kernel.unlockedAt, Kernel.setInode_self]
          exact ((hJ.inv hw).lock i List.mem_cons_self).2
        refine hJ.drop (hJ.table hx.1 (fun p hp => ?_) hc) fun hl => ?_
        · rcases List.mem_cons.mp hp with rfl | hp
          · exact .inr hvalid
          · exact .inl ⟨p, List.mem_cons_of_mem _ hp, rfl⟩
        have := (hc.locked _ (hc.held _ List.mem_cons_self)).mpr hl
        exact absurd this (Bool.eq_false_iff.mp hfree)

theorem execCheck_spec (h : J H G L k) (path : Name) : Ends (execCheck path) k fun r t =>
    match r with
    | .missing => J H G L t ∧ ¬k.Runnable path
    | .denied => J H G L t ∧ ¬k.Runnable path
    | .passed => (∃ i, J (i :: H) G L t) ∧ k.Runnable path := by
  rw [execCheck, beginOp, ends_modify_bind]
  refine (namei_spec hJ (hJ.same h k.same_begun) path).self.bind fun r u hu => ?_
  obtain ⟨hrun, hu⟩ := hu
  cases r with
  | none =>
    refine (endOp_spec u).bind fun _ w hw => .pure ⟨hJ.same hu hw, ?_⟩
    rintro ⟨i, t, ht, -⟩
    cases hrun.symm.trans ht
  | some i =>
    have hlt := (hJ.inv hu).held i List.mem_cons_self
    refine (ilock_spec hJ hu hlt).bind fun _ w hw => ?_
    obtain ⟨hw, hi, hwu⟩ := hw
    rw [ends_modify_bind, ends_get_bind]
    have hbit : (w.inode i).copy.perm.testBit 2 = !(granted u.notes (u.inode i).inum).testBit 2 := by
      rw [(hJ.inv hw).perm_bit List.mem_cons_self (by decide), hwu, Kernel.lockedAt, Kernel.setInode_self]
      rfl
    have hw := hJ.consult i hw
    refine .ite (fun hden => ?_) fun hpass => ?_
    · refine (iunlockput_spec hJ hw List.mem_cons_self (mem_locks hi)).bind fun _ x hx => ?_
      refine (endOp_spec x).bind fun _ y hy => .pure ⟨hJ.same hx hy, ?_⟩
      rintro ⟨j, t, ht, hg⟩
      cases hrun.symm.trans ht
      have := hbit.symm.trans hden
      rw [hg] at this
      exact absurd this (by decide)
    · refine (iunlock_spec hJ hw List.mem_cons_self (mem_locks hi)).bind fun _ x hx => ?_
      refine (endOp_spec x).bind fun _ y hy => .pure ⟨⟨i, hJ.same hx.1 hy⟩, i, u, hrun, ?_⟩
      have := hbit.symm.trans (Bool.eq_false_iff.mpr hpass)
      simpa only [Bool.not_eq_false'] using this

theorem exec_spec (h : J H G L k) (path : Name) (loads : Bool) :
    Ends (exec path loads) k fun _ t => J H G L t := by
  refine (beginOp_spec k).bind fun _ t ht => ?_
  refine (namei_spec hJ (hJ.same h ht) path).bind fun r u hu => ?_
  cases r with
  | none => exact (endOp_spec u).bind fun _ w hw => .pure (hJ.same hu hw)
  | some i =>
    have hlt := (hJ.inv hu).held i List.mem_cons_self
    refine (ilock_spec hJ hu hlt).bind fun _ w hw => ?_
    obtain ⟨hw, hi, -⟩ := hw
    refine (iunlockput_spec hJ hw List.mem_cons_self (mem_locks hi)).bind fun _ x hx => ?_
    exact (endOp_spec x).bind fun _ y hy => .pure (hJ.same hx hy)

/-- Of `A1`'s `sys_exec`: the reference is dropped if the permission is refused only. -/
theorem sysExec_spec (h : J H G L k) (path : Option Name) (args loads : Bool) :
    Ends (sysExec path args loads) k fun _ t =>
      (J H G L t ∧ ∀ s, path = some s → v = .a1 → ¬k.Runnable s) ∨
      (J H G L t ∧ v = .a3) ∨
      ((∃ i, J (i :: H) G L t) ∧ v = .a1 ∧ ∃ s, path = some s ∧ k.Runnable s) := by
  cases path with
  | none => exact .pure (.inl ⟨h, fun _ hs => absurd hs (by simp)⟩)
  | some path =>
    unfold sysExec
    dsimp only
    rw [ends_get_bind, (hJ.inv h).version]
    refine .ite (fun hv => .ite (fun _ => ?_) fun _ => .pure (.inr (.inl ⟨h, hv⟩))) fun hv => ?_
    · exact (exec_spec hJ h path loads).mono fun _ t ht => .inr (.inl ⟨ht, hv⟩)
    have hv : v = .a1 := by
      cases v with
      | a1 => rfl
      | a3 => exact absurd rfl hv
    refine (execCheck_spec hJ h path).bind fun r t ht => ?_
    cases r with
    | missing => exact .pure (.inl ⟨ht.1, fun s hs _ => Option.some.inj hs ▸ ht.2⟩)
    | denied => exact .pure (.inl ⟨ht.1, fun s hs _ => Option.some.inj hs ▸ ht.2⟩)
    | passed =>
      obtain ⟨⟨i, ht⟩, hrun⟩ := ht
      refine .ite (fun _ => ?_) fun _ => .pure (.inr (.inr ⟨⟨i, ht⟩, hv, path, rfl, hrun⟩))
      exact (exec_spec hJ ht path loads).mono fun _ u hu => .inr (.inr ⟨⟨i, hu⟩, hv, path, rfl, hrun⟩)

/-! ### Pipes -/

theorem setPipe_spec (h : J H G L k) (hf : f < nfile) (htype : (k.file f).type ≠ .inode) (writable : Bool) :
    Ends (setPipe f writable) k fun _ t => J H G L t ∧
      ∀ f', (k.file f').type ≠ .inode → (t.file f').type ≠ .inode := by
  have hpipe : FileType.pipe ≠ .inode := by decide
  refine .modify ⟨hJ.table h k.seats ((hJ.inv h).setFile hf ((hJ.inv h).files f hf) (fun _ _ => rfl) (fun ht => ?_)
    (fun ht => ?_) ((hJ.inv h).ips f hf) (hJ.inv h).held fun i => ?_), fun f' hf' => ?_⟩
  · exact absurd ht hpipe
  · exact absurd ht hpipe
  · simp [File.at, htype]
  · by_cases hff : f' = f
    · rw [hff, Kernel.setFile_self]
      exact hpipe
    · rwa [Kernel.setFile_of_ne hff]

theorem swap_files (h : J H (f :: g :: G) L k) : J H (g :: f :: G) L k := by
  refine hJ.table h k.seats ?_
  have hi := hJ.inv h
  refine ⟨hi.version, hi.cwd, hi.ofile, hi.held, hi.opened, hi.closed, hi.ips, hi.refs, fun f' hf => ?_, hi.unique,
    hi.dev, hi.locked, hi.lock, hi.cached, hi.perm⟩
  rw [(List.Perm.swap f g G).count_eq]
  exact hi.files f' hf

/-- Both files are closed. -/
theorem fileclose_both {m : M Ret} (h : J H (f :: g :: G) L k) (hf : f < nfile) (hg : g < nfile)
    (hm : ∀ t, J H G L t → Ends m t fun _ t => J H G L t) :
    Ends (do fileclose f; fileclose g; m) k fun _ t => J H G L t := by
  refine (fileclose_spec hJ h hf).bind fun _ t ht => ?_
  exact (fileclose_spec hJ ht hg).bind fun _ u hu => hm u hu

theorem pipealloc_spec (h : J H G L k) (page : Bool) : Ends (pipealloc page) k fun r t =>
    match r with
    | none => J H G L t
    | some (rf, wf) => rf < nfile ∧ wf < nfile ∧ J H (rf :: wf :: G) L t := by
  refine (filealloc_spec hJ h).bind fun r t ht => ?_
  cases r with
  | none => exact .pure (ht ▸ h)
  | some rf =>
    obtain ⟨hrf, hrt, rfl, ht⟩ := ht
    refine (filealloc_spec hJ ht).bind fun r u hu => ?_
    cases r with
    | none =>
      rw [hu]
      exact (fileclose_spec hJ ht hrf).bind fun _ w hw => .pure hw
    | some wf =>
      obtain ⟨hwf, hwt, rfl, hu⟩ := hu
      refine .ite (fun _ => ?_) fun _ => ?_
      · refine (setPipe_spec hJ hu hrf ?_ false).bind fun _ w hw => ?_
        · rwa [Kernel.setFile_type _ rfl, Kernel.setFile_type _ rfl]
        refine (setPipe_spec hJ hw.1 hwf (hw.2 wf ?_) true).bind fun _ x hx => ?_
        · rw [Kernel.setFile_self]
          exact hwt
        exact .pure ⟨hrf, hwf, swap_files hJ hx.1⟩
      · refine (fileclose_spec hJ (swap_files hJ hu) hrf).bind fun _ w hw => ?_
        exact (fileclose_spec hJ hw hwf).bind fun _ x hx => .pure hx

theorem sysPipe_spec (h : J H G L k) (ok page : Bool) : Ends (sysPipe ok page) k fun _ t => J H G L t := by
  refine .ite (fun _ => ?_) fun _ => .pure h
  refine (pipealloc_spec hJ h page).bind fun r t ht => ?_
  cases r with
  | none => exact .pure ht
  | some r =>
    obtain ⟨hrf, hwf, ht⟩ := ht
    have hclose : ∀ u, J H (r.1 :: r.2 :: G) L u →
        Ends (do fileclose r.1; fileclose r.2; return Ret.int (-1)) u fun _ t => J H G L t :=
      fun u hu => fileclose_both hJ hu hrf hwf fun _ hw => .pure hw
    refine (fdalloc_spec hJ ht hrf).bind fun fd u hu => ?_
    cases fd with
    | none => exact hclose u (hu ▸ ht)
    | some fd =>
      obtain ⟨hfd, rfl, hu⟩ := hu
      refine (fdalloc_spec hJ hu hwf).bind fun fd' w hw => ?_
      cases fd' with
      | none =>
        rw [ends_modify_bind, hw]
        exact hclose _ (setFd_none hJ hu hfd (update_self ..))
      | some fd' => exact .pure hw.2.2

end Steady

end Xv6.Files
