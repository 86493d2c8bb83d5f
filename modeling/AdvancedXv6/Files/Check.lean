import AdvancedXv6.Files.Story

/-! What the permission checks come to, in the states between system calls. -/

namespace Xv6.Files
open Function Effect

variable {v : Version} {H G L : List Nat} {k t : Kernel} {i f n fd bit : Nat}

theorem ilock_ok (hpos : 0 < (k.inode i).ref) (hfree : (k.inode i).locked = false)
    (htype : (k.inode i).valid = false → (k.dinode (k.inode i).inum).type ≠ .free) :
    ilock i k = .ok () (k.lockedAt i) := by
  have h : wp (ilock i) k (fun _ _ => True) fun _ _ => False := by
    simp only [ilock, acquiresleep, wp_bind, wp_get, wp_ite, wp_modify, wp_throw, wp_pure,
      Kernel.setInode_self]
    refine ⟨fun hlt => absurd hpos (Int.not_lt.mpr (Int.le_of_lt_add_one hlt)), fun _ =>
      ⟨fun hl => absurd hl (Bool.eq_false_iff.mp hfree), fun _ => ⟨fun hv => ⟨fun hf => htype hv hf, fun _ => trivial⟩,
        fun _ => trivial⟩⟩⟩
  obtain ⟨_, t, ht, -⟩ := exists_ok_of_wp h
  rw [ht, ((ilock_state k i).ok ht).1]

theorem iunlock_ok (hpos : 0 < (k.inode i).ref) (hlocked : (k.inode i).locked = true) :
    iunlock i k = .ok () (k.unlockedAt i) := by
  have h : wp (iunlock i) k (fun _ _ => True) fun _ _ => False := by
    simp only [iunlock, releasesleep, wp_bind, wp_get, wp_ite, wp_modify, wp_throw]
    refine ⟨fun h => ?_, fun _ => trivial⟩
    rcases h with h | h
    · exact absurd hlocked (Bool.eq_false_iff.mp h)
    · exact absurd hpos (Int.not_lt.mpr (Int.le_of_lt_add_one h))
  obtain ⟨_, t, ht, -⟩ := exists_ok_of_wp h
  rw [ht, ((iunlock_state k i).ok ht).1]

theorem iput_ok (hfree : (k.inode i).locked = false) : iput i k = .ok () (k.dropped i) := by
  have h : wp (iput i) k (fun _ _ => True) fun _ _ => False := by
    simp only [iput, acquiresleep, releasesleep, itrunc, iupdate, wp_bind, wp_get, wp_ite, wp_modify,
      wp_throw, Kernel.setInode_self]
    exact ⟨fun hl => absurd hl (Bool.eq_false_iff.mp hfree), fun _ => ⟨fun _ => trivial, fun _ => trivial⟩⟩
  obtain ⟨_, t, ht, -⟩ := exists_ok_of_wp h
  rw [ht, ((iput_state k i).ok ht).1]

/-- A valid entry is locked and unlocked. -/
theorem Kernel.lock_unlock (hvalid : (k.inode i).valid = true) (hfree : (k.inode i).locked = false) (x : Note) :
    ((k.lockedAt i).note x).unlockedAt i = k.note x := by
  have hsame : { k.inode i with locked := false, valid := true, copy := (k.inode i).copy } = k.inode i := by
    rw [← hvalid, ← hfree]
  simp only [Kernel.unlockedAt, Kernel.lockedAt, Kernel.note, Kernel.setInode, update_self, update_idem, hvalid,
    if_true, hsame, update_eq_self]

/-- The inode of an open file is valid and not locked. -/
theorem Inv.live_inode (h : Inv v H G [] k) (hf : f < nfile) (htype : (k.file f).type = .inode)
    (hip : (k.file f).ip = some i) : i < ninode ∧ 0 < (k.inode i).ref ∧ (k.inode i).valid = true ∧
      (k.inode i).locked = false := by
  have hi := h.ips f hf i hip
  have hlive : k.Live f := ⟨h.closed f hf htype, htype⟩
  have huses := Inv.live_uses hf hlive hip
  refine ⟨hi, ?_, h.valid_of_file hf hlive hip, ?_⟩
  · rw [h.refs i hi]
    omega
  · exact Bool.eq_false_iff.mpr fun hl => List.not_mem_nil ((h.locked i hi).mp hl)

/-- What the check of `sys_read` and `sys_write` comes to. -/
theorem forbidden_ok (h : Inv .a1 H G [] k) (hf : f < nfile) (htype : (k.file f).type = .inode)
    (hip : (k.file f).ip = some i) (hbit : bit < 3) :
    forbidden f bit k = .ok (!(granted k.notes (k.inode i).inum).testBit bit) (k.note (.consulted i)) := by
  obtain ⟨hi, hpos, hvalid, hfree⟩ := h.live_inode hf htype hip
  have hlock := h.lockAt hi hpos fun hv => absurd hvalid (Bool.eq_false_iff.mp hv)
  have hperm := hlock.perm_bit List.mem_cons_self hbit
  have hw : wp (forbidden f bit) k (fun bad t => bad = ((k.lockedAt i).inode i).copy.perm.testBit bit ∧
      t = k.note (.consulted i)) fun _ _ => False := by
    simp only [forbidden, fileIp, wp_bind, wp_get, wp_ite, wp_pure, h.version, hip]
    refine ⟨fun hv => absurd hv (by decide), fun _ => ?_⟩
    refine wp_of_ok (ilock_ok hpos hfree fun hv => absurd hvalid (Bool.eq_false_iff.mp hv)) ?_
    rw [wp_modify]
    refine wp_of_ok (iunlock_ok ?_ ?_) ⟨rfl, Kernel.lock_unlock hvalid hfree _⟩
    · exact (hlock.lock i List.mem_cons_self).2.2
    · exact (hlock.locked i hi).mpr List.mem_cons_self
  obtain ⟨bad, t, ht, rfl, rfl⟩ := exists_ok_of_wp hw
  rw [ht, hperm, Kernel.lockedAt, Kernel.setInode_self]
  rfl

theorem argfd_ok (h : Inv v H G L k) (hofile : k.proc.ofile fd = some f) :
    argfd (fd : Int) k = .ok (some f) k := by
  have hfd := (h.ofile k.proc List.mem_cons_self fd f hofile).1
  have hrange : ¬((fd : Int) < 0 ∨ (nofile : Int) ≤ fd) := by omega
  rw [argfd, if_neg hrange, Int.toNat_natCast, ← hofile]
  rfl

section Descriptor
variable (h : Inv .a1 H G [] k) (hofile : k.proc.ofile fd = some f) (htype : (k.file f).type = .inode)
  (hip : (k.file f).ip = some i)
include h hofile htype hip

/-- The permission is consulted, and then the file is read or not. -/
theorem sysRead_eq (N : Nat) (io : Int) : sysRead fd (some N) io k =
    if (granted k.notes (k.inode i).inum).testBit 0 then (Ret.int <$> fileread f N io) (k.note (.consulted i))
    else .ok .denied (k.note (.consulted i)) := by
  have hf := (h.ofile k.proc List.mem_cons_self fd f hofile).2
  rw [sysRead, bind_ok (argfd_ok h hofile)]
  dsimp only
  rw [bind_ok (forbidden_ok h hf htype hip (by decide))]
  cases (granted k.notes (k.inode i).inum).testBit 0 with
  | true => rfl
  | false => rfl

theorem sysWrite_eq (src : List UInt8) (io : Int) : sysWrite fd (some src) io k =
    if (granted k.notes (k.inode i).inum).testBit 1 then (Ret.int <$> filewrite f src io) (k.note (.consulted i))
    else .ok .denied (k.note (.consulted i)) := by
  have hf := (h.ofile k.proc List.mem_cons_self fd f hofile).2
  rw [sysWrite, bind_ok (argfd_ok h hofile)]
  dsimp only
  rw [bind_ok (forbidden_ok h hf htype hip (by decide))]
  cases (granted k.notes (k.inode i).inum).testBit 1 with
  | true => rfl
  | false => rfl

end Descriptor

theorem map_int_ne_denied (m : M Int) (k t : Kernel) : (Ret.int <$> m) k ≠ .ok .denied t := by
  simp only [Functor.map, EStateM.map]
  cases m k with
  | ok a s => simp
  | error e s => simp

/-! ### Execution -/

theorem exec_ne_denied (path : Name) (loads : Bool) : Ends (exec path loads) k fun r _ => r ≠ .denied := by
  refine Ends.any.bind fun _ _ _ => Ends.any.bind fun r _ _ => ?_
  cases r with
  | none => exact Ends.any.bind fun _ _ _ => .pure (by simp)
  | some i =>
    refine Ends.any.bind fun _ _ _ => Ends.any.bind fun _ _ _ => Ends.any.bind fun _ _ _ => .pure (by simp)

/-- An inode that may not be executed is refused. -/
theorem execCheck_denied (h : Inv v H G [] k) {path : Name} {s : Kernel} (hres : namei path k.begun = .ok (some i) s)
    (htype : (s.dinode (s.inode i).inum).type ≠ .free)
    (hbit : (granted s.notes (s.inode i).inum).testBit 2 = false) : ∃ t, execCheck path k = .ok .denied t := by
  have hs : Inv v (i :: H) G [] s := (namei_spec (steady_inv v) (k.same_begun.inv h) path).ok hres
  have hi := hs.held i List.mem_cons_self
  have hpos := hs.pos_of_held List.mem_cons_self
  have hfree : (s.inode i).locked = false :=
    Bool.eq_false_iff.mpr fun hl => List.not_mem_nil ((hs.locked i hi).mp hl)
  have hlock := hs.lockAt hi hpos fun _ => htype
  have hperm : ((s.lockedAt i).inode i).copy.perm.testBit 2 =
      !(granted (s.lockedAt i).notes ((s.lockedAt i).inode i).inum).testBit 2 :=
    hlock.perm_bit List.mem_cons_self (by decide)
  have hden : (((s.lockedAt i).note (.consulted i)).inode i).copy.perm.testBit 2 = true := by
    refine hperm.trans ?_
    have hn : (s.lockedAt i).notes = s.notes := rfl
    rw [hn, Kernel.lockedAt, Kernel.setInode_self]
    dsimp only
    rw [hbit]
    rfl
  have hunlock := iunlock_ok (k := (s.lockedAt i).note (.consulted i)) (hlock.lock i List.mem_cons_self).2.2
    ((hlock.locked i hi).mpr List.mem_cons_self)
  have hput := iput_ok (k := ((s.lockedAt i).note (.consulted i)).unlockedAt i) (i := i) (by
    rw [Kernel.unlockedAt, Kernel.setInode_self])
  have hw : wp (execCheck path) k (fun r _ => r = .denied) fun _ _ => False := by
    simp only [execCheck, beginOp, wp_bind, wp_modify]
    refine wp_of_ok hres ?_
    simp only [iunlockput, endOp, wp_bind, wp_modify, wp_get, wp_ite, wp_pure]
    refine wp_of_ok (ilock_ok hpos hfree fun _ => htype) ⟨fun _ => ?_, fun hno => absurd hden hno⟩
    exact wp_of_ok hunlock (wp_of_ok hput trivial)
  obtain ⟨_, t, ht, rfl⟩ := exists_ok_of_wp hw
  exact ⟨t, ht⟩

/-- What `sys_exec` does with the result of the check. -/
def afterCheck (path : Name) (args loads : Bool) : Check → M Ret
  | .missing => return .int (-1)
  | .denied => return .denied
  | .passed => if args then exec path loads else return .int (-1)

theorem sysExec_eq (hv : k.version = .a1) (path : Name) (args loads : Bool) :
    sysExec (some path) args loads k = (execCheck path >>= afterCheck path args loads) k := by
  unfold sysExec
  dsimp only
  rw [bind_ok (rfl : (get : M Kernel) k = .ok k k), hv]
  have hne : Version.a1 ≠ .a3 := by decide
  refine (congrFun (if_neg hne) k).trans (congrArg (fun f => (execCheck path >>= f) k) (funext fun c => ?_))
  cases c <;> rfl

/-- The execution of an inode is refused, or it is not, by the mode in effect. -/
theorem sysExec_denied (h : Inv .a1 H G [] k) {path : Name} {s : Kernel}
    (hres : namei path k.begun = .ok (some i) s) (htype : (s.dinode (s.inode i).inum).type ≠ .free)
    (args loads : Bool) : (∃ t, sysExec (some path) args loads k = .ok .denied t) ↔
      (granted s.notes (s.inode i).inum).testBit 2 = false := by
  rw [sysExec_eq h.version]
  constructor
  · rintro ⟨t, ht⟩
    by_contra hbit
    have hrun : k.Runnable path := ⟨i, s, hres, by simpa using hbit⟩
    have hno : Ends (execCheck path >>= afterCheck path args loads) k fun r _ => r ≠ .denied := by
      refine (execCheck_spec (steady_inv .a1) h path).bind fun c u hc => ?_
      cases c with
      | missing => exact .pure (by simp)
      | denied => exact absurd hrun hc.2
      | passed => exact .ite (fun _ => exec_ne_denied path loads) fun _ => .pure (by simp)
    exact hno.ok ht rfl
  · intro hbit
    obtain ⟨t, ht⟩ := execCheck_denied h hres htype hbit
    exact ⟨t, bind_ok ht⟩

end Xv6.Files
