import AdvancedXv6.Files.DirSpec
import AdvancedXv6.Files.FileSpec

/-! The system calls on descriptors: what the cache and the table keep, these calls keep. -/

namespace Xv6.Files
open Function Effect

variable {v : Version} {H G L : List Nat} {k t : Kernel} {i f : Nat}

theorem argfd_spec (k : Kernel) (fd : Int) : Ends (argfd fd) k fun r t => t = k ∧
    ∀ f, r = some f → fd.toNat < nofile ∧ k.proc.ofile fd.toNat = some f := by
  rw [argfd]
  refine .ite (fun _ => .pure ⟨rfl, fun f hf => absurd hf (by simp)⟩) fun hfd => ?_
  rw [ends_get_bind]
  refine .pure ⟨rfl, fun f hf => ⟨?_, hf⟩⟩
  rw [not_or, not_lt, not_le] at hfd
  omega

theorem fdalloc_state (k : Kernel) (f : Nat) : Ends (fdalloc f) k fun r t => match r with
    | none => t = k
    | some fd => fd < nofile ∧ k.proc.ofile fd = none ∧ t = k.setFd fd (some f) := by
  rw [fdalloc, ends_get_bind]
  split
  · exact .pure rfl
  · rename_i fd hfind
    obtain ⟨hfd, hnone⟩ := find_lt hfind
    rw [ends_modify_bind]
    exact .pure ⟨hfd, Option.isNone_iff_eq_none.mp hnone, rfl⟩

theorem readi_spec (k : Kernel) (ip off n : Nat) (io : Int) :
    Ends (readi ip off n io) k fun _ t => Same k t := by
  unfold readi
  rw [ends_get_bind]
  refine .ite (fun _ => .pure (.refl k)) fun _ => ?_
  rw [ends_get_bind]
  refine .ite (fun _ => .pure (.refl k)) fun _ => ?_
  refine .ite (fun _ => ?_) fun _ => .pure (.refl k)
  exact (bmapTo_spec k _ _).bind fun _ t ht => .pure ht

/-- The descriptors do not matter. -/
theorem Kernel.seats_cwd (k : Kernel) {ofile : Nat → Option Nat} :
    k.Seats ({ k.proc with ofile } :: k.others) := by
  intro p hp
  rcases List.mem_cons.mp hp with rfl | hp
  · exact .inl ⟨k.proc, List.mem_cons_self, rfl⟩
  · exact .inl ⟨p, List.mem_cons_of_mem _ hp, rfl⟩

section Steady
variable {J : List Nat → List Nat → List Nat → Kernel → Prop} (hJ : Steady v J)
include hJ

/-- A new descriptor for a file that the kernel holds. -/
theorem setFd_some (h : J H (f :: G) L k) {fd : Nat} (hf : f < nfile) (hfd : fd < nofile)
    (hnone : k.proc.ofile fd = none) : J H G L (k.setFd fd (some f)) := by
  refine hJ.table h k.seats_cwd ((hJ.inv h).setFd hfd (fun f' hf' => Option.some.inj hf' ▸ hf) fun f' => ?_)
  by_cases hff : f = f'
  · simp [hnone, hff, Nat.add_comm]
  · simp [hnone, hff]

/-- A descriptor is given up, and the kernel holds the file. -/
theorem setFd_none (h : J H G L k) {fd : Nat} (hfd : fd < nofile) (hsome : k.proc.ofile fd = some f) :
    J H (f :: G) L (k.setFd fd none) := by
  refine hJ.table h k.seats_cwd ((hJ.inv h).setFd hfd (fun f' hf' => absurd hf' (by simp)) fun f' => ?_)
  by_cases hff : f = f'
  · simp [hsome, hff, Nat.add_comm]
  · simp [hsome, hff]

theorem fdalloc_spec (h : J H (f :: G) L k) (hf : f < nfile) : Ends (fdalloc f) k fun r t =>
    match r with
    | none => t = k
    | some fd => fd < nofile ∧ t = k.setFd fd (some f) ∧ J H G L t := by
  refine (fdalloc_state k f).mono fun r t ht => ?_
  cases r with
  | none => exact ht
  | some fd =>
    obtain ⟨hfd, hnone, rfl⟩ := ht
    exact ⟨hfd, rfl, setFd_some hJ h hf hfd hnone⟩

theorem sysDup_spec (h : J H G L k) (fd : Int) : Ends (sysDup fd) k fun _ t => J H G L t := by
  refine (argfd_spec k fd).bind fun r t ht => ?_
  obtain ⟨rfl, hr⟩ := ht
  cases r with
  | none => exact .pure h
  | some f =>
    obtain ⟨hlt, hofile⟩ := hr f rfl
    obtain ⟨hf, hpos⟩ := (hJ.inv h).ofile_pos List.mem_cons_self hofile
    refine (fdalloc_state t f).bind fun r u hu => ?_
    cases r with
    | none => exact .pure (hu ▸ h)
    | some fd =>
      obtain ⟨hfd, hnone, rfl⟩ := hu
      refine (filedup_state _ f).bind fun _ u hu => .pure ?_
      rw [hu]
      -- the descriptor and the reference are independent parts of the state
      exact setFd_some hJ (hJ.table h (Kernel.seats _) ((hJ.inv h).dupFile hf hpos)) hf hfd hnone

theorem sysClose_spec (h : J H G L k) (fd : Int) : Ends (sysClose fd) k fun _ t => J H G L t := by
  refine (argfd_spec k fd).bind fun r t ht => ?_
  obtain ⟨rfl, hr⟩ := ht
  cases r with
  | none => exact .pure h
  | some f =>
    obtain ⟨hlt, hofile⟩ := hr f rfl
    obtain ⟨hf, -⟩ := (hJ.inv h).ofile_pos List.mem_cons_self hofile
    rw [ends_modify_bind]
    exact (fileclose_spec hJ (setFd_none hJ h hlt hofile) hf).bind fun _ u hu => .pure hu

/-! ### Reading and writing -/

theorem writei_spec (h : J H G L k) (hi : i ∈ L) (off : Nat) (src : List UInt8) :
    Ends (writei i off src) k fun _ t => J H G L t := by
  unfold writei
  rw [ends_get_bind]
  refine .ite (fun _ => .pure h) fun _ => ?_
  rw [ends_get_bind]
  refine .ite (fun _ => .pure h) fun _ => .ite (fun _ => .pure h) fun _ => ?_
  refine .ite (fun _ => ?_) fun _ => .pure h
  refine (bmapTo_spec k _ _).bind fun _ t ht => ?_
  rw [ends_modify_bind]
  have hw := hJ.same (hJ.same h ht) (same_setData t (k.inode i).inum (f := fun d =>
    { d with bytes := d.bytes.take off ++ src ++ d.bytes.drop (off + src.length) }) fun _ => rfl)
  refine .ite (fun _ => ?_) fun _ => .pure hw
  exact (iupdate_spec hJ hw hi).bind fun _ u hu => .pure hu

/-- The inode of an open file. -/
theorem ip_lt (h : J H G L k) (hf : f < nfile) (hip : (k.file f).ip = some i) : i < ninode :=
  (hJ.inv h).ips f hf i hip

theorem advance (h : J H G L k) (hf : f < nfile) (n : Nat) :
    J H G L (k.setFile f fun g => { g with off := g.off + n }) :=
  hJ.table h k.seats ((hJ.inv h).setFile_same hf rfl rfl rfl)

theorem filestat_spec (h : J H G L k) (hf : f < nfile) : Ends (filestat f) k fun _ t => J H G L t := by
  rw [filestat, ends_get_bind]
  refine .ite (fun _ => ?_) fun _ => .pure h
  refine (fileIp_spec k f).bind fun i t ht => ?_
  obtain ⟨rfl, hip⟩ := ht
  refine (ilock_spec hJ h (ip_lt hJ h hf hip)).bind fun _ t ht => ?_
  exact (iunlock_spec hJ ht.1 List.mem_cons_self (mem_locks ht.2.1)).bind fun _ u hu => .pure hu.1

theorem forbidden_spec (h : J H G L k) (hf : f < nfile) (bit : Nat) :
    Ends (forbidden f bit) k fun _ t => J H G L t := by
  rw [forbidden, ends_get_bind]
  refine .ite (fun _ => .pure h) fun _ => ?_
  refine (fileIp_spec k f).bind fun i t ht => ?_
  obtain ⟨rfl, hip⟩ := ht
  refine (ilock_spec hJ h (ip_lt hJ h hf hip)).bind fun _ t ht => ?_
  rw [ends_modify_bind, ends_get_bind]
  refine (iunlock_spec hJ (hJ.consult i ht.1) List.mem_cons_self (mem_locks ht.2.1)).bind fun _ u hu => ?_
  exact .pure hu.1

theorem fileread_spec (h : J H G L k) (hf : f < nfile) (n : Nat) (io : Int) :
    Ends (fileread f n io) k fun _ t => J H G L t := by
  rw [fileread, ends_get_bind]
  refine .ite (fun _ => .pure h) fun _ => ?_
  split
  · exact .pure h
  · exact .throw _
  · refine (fileIp_spec k f).bind fun i t ht => ?_
    obtain ⟨rfl, hip⟩ := ht
    refine (ilock_spec hJ h (ip_lt hJ h hf hip)).bind fun _ t ht => ?_
    obtain ⟨ht, hi, -⟩ := ht
    refine (readi_spec t i _ n io).bind fun r u hu => ?_
    have hu := hJ.same ht hu
    refine .ite (fun _ => ?_) fun _ => ?_
    · rw [ends_modify_bind]
      refine (iunlock_spec hJ (advance hJ hu hf _) List.mem_cons_self (mem_locks hi)).bind fun _ w hw => ?_
      exact .pure hw.1
    · exact (iunlock_spec hJ hu List.mem_cons_self (mem_locks hi)).bind fun _ w hw => .pure hw.1

theorem writeLoop_spec (hf : f < nfile) (hi : i < ninode) (rounds : Nat) (src : List UInt8) (h : J H G L k) :
    Ends (writeLoop f i rounds src) k fun _ t => J H G L t := by
  induction rounds generalizing src k with
  | zero => exact .pure h
  | succ rounds ih =>
    rw [writeLoop]
    refine .ite (fun _ => .pure h) fun _ => ?_
    refine (beginOp_spec k).bind fun _ t ht => ?_
    refine (ilock_spec hJ (hJ.same h ht) hi).bind fun _ t ht => ?_
    obtain ⟨ht, hl, -⟩ := ht
    rw [ends_get_bind]
    refine (writei_spec hJ ht List.mem_cons_self _ _).bind fun r u hu => ?_
    have hrest : ∀ w, J H G (i :: L) w → Ends (do
        iunlock i
        endOp
        if r < 0 then return false
        if r ≠ (src.take maxWrite).length then throw .shortWrite
        writeLoop f i rounds (src.drop maxWrite)) w fun _ t => J H G L t := by
      intro w hw
      refine (iunlock_spec hJ hw List.mem_cons_self (mem_locks hl)).bind fun _ x hx => ?_
      refine (endOp_spec x).bind fun _ y hy => ?_
      have hy := hJ.same hx.1 hy
      exact .ite (fun _ => .pure hy) fun _ => .ite (fun _ => .throw _) fun _ => ih _ hy
    refine .ite (fun _ => ?_) fun _ => hrest u hu
    rw [ends_modify_bind]
    exact hrest _ (advance hJ hu hf _)

theorem filewrite_spec (h : J H G L k) (hf : f < nfile) (src : List UInt8) (io : Int) :
    Ends (filewrite f src io) k fun _ t => J H G L t := by
  rw [filewrite, ends_get_bind]
  refine .ite (fun _ => .pure h) fun _ => ?_
  split
  · exact .pure h
  · exact .throw _
  · refine (fileIp_spec k f).bind fun i t ht => ?_
    obtain ⟨rfl, hip⟩ := ht
    exact (writeLoop_spec hJ hf (ip_lt hJ h hf hip) _ src h).bind fun _ t ht => .pure ht

end Steady

end Xv6.Files
