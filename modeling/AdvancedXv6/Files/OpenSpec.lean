import AdvancedXv6.Files.ProcSpec

/-! Opening a file, and what a whole step keeps when the calls that change directories and permissions
keep it. -/

namespace Xv6.Files
open Function Effect

variable {v : Version} {H G L : List Nat} {k t : Kernel} {i f : Nat}

/-- The reference becomes that of a file. -/
theorem Inv.install (h : Inv v (i :: H) G L k) (hf : f < nfile) (hpos : 0 < (k.file f).ref)
    (htype : (k.file f).type ≠ .inode) (hvalid : (k.inode i).valid = true) (readable writable : Bool) :
    Inv v H G L (k.setFile f fun g => { g with type := .inode, ip := some i, off := 0, readable, writable }) := by
  have hi := h.held i List.mem_cons_self
  refine h.setFile hf (h.files f hf) (fun _ _ => rfl) (fun _ => hpos) (fun _ => ⟨i, hi, rfl, hvalid⟩)
    (fun j hj => Option.some.inj hj ▸ hi) h.erase_held fun j => ?_
  by_cases hij : i = j
  · simp [File.at, htype, hpos, hij, Nat.add_comm]
  · simp [File.at, htype, hpos, hij]

theorem after_spec {α : Type} {m : M α} {P : Kernel → Prop} (h : Ends m k fun _ t => P t)
    (ht : k.after m = some t) : P t := by
  rw [Kernel.after] at ht
  split at ht
  · rename_i a u hm
    obtain rfl := Option.some.inj ht
    exact h.ok hm
  · exact absurd ht (by simp)

/-- The program may return a locked inode with a reference to it. -/
def Locks (J : List Nat → List Nat → List Nat → Kernel → Prop) (H : List Nat) (m : M (Option Nat))
    (k : Kernel) : Prop :=
  Ends m k fun r t => match r with
    | none => J H [] [] t
    | some i => J (i :: H) [] [i] t

/-- The name and the type of the inode that the call may create. -/
def Call.creates : Call → Option (Name × Kind)
  | .open (some path) omode => if oCreate omode then some (path, .file) else none
  | .mkdir (some path) => some (path, .dir)
  | .mknod (some path) _ _ => some (path, .dev)
  | _ => none

theorem Call.creates_ne {c : Call} {path : Name} {type : Kind} (h : c.creates = some (path, type)) :
    type ≠ .free := by
  unfold Call.creates at h
  split at h
  · split at h
    · cases h
      decide
    · exact absurd h (by simp)
  · cases h
    decide
  · cases h
    decide
  · exact absurd h (by simp)

section Steady
variable {J : List Nat → List Nat → List Nat → Kernel → Prop} (hJ : Steady v J)
include hJ

theorem openInode_spec (path : Name) (omode : Nat) (h : J H [] [] k)
    (hcreate : oCreate omode = true → Locks J H (create path .file 0 0) k) :
    Locks J H (openInode path omode) k := by
  refine .ite hcreate fun _ => ?_
  refine (namei_spec hJ h path).bind fun r t ht => ?_
  cases r with
  | none => exact .pure ht
  | some i =>
    refine (ilock_spec hJ ht ((hJ.inv ht).held i List.mem_cons_self)).bind fun _ u hu => ?_
    obtain ⟨hu, hi, -⟩ := hu
    rw [ends_get_bind]
    refine .ite (fun _ => ?_) fun _ => .pure hu
    exact (iunlockput_spec hJ hu List.mem_cons_self (mem_locks hi)).bind fun _ w hw => .pure hw

/-- The end of a call that drops a locked inode. -/
theorem putEnd_spec (h : J (i :: H) G (i :: L) k) (hi : i ∉ L) (r : Ret) :
    Ends (do iunlockput i; endOp; return r) k fun _ t => J H G L t := by
  refine (iunlockput_spec hJ h List.mem_cons_self (mem_locks hi)).bind fun _ t ht => ?_
  exact (endOp_spec t).bind fun _ u hu => .pure (hJ.same ht hu)

theorem sysOpen_spec (h : J H [] [] k) (path : Option Name) (omode : Nat)
    (hcreate : ∀ s t, path = some s → oCreate omode = true → Same k t → Locks J H (create s .file 0 0) t) :
    Ends (sysOpen path omode) k fun _ t => J H [] [] t := by
  cases path with
  | none => exact .pure h
  | some path =>
    refine (beginOp_spec k).bind fun _ t ht => ?_
    refine (openInode_spec hJ path omode (hJ.same h ht) fun ho => hcreate path t rfl ho ht).bind fun r u hu => ?_
    cases r with
    | none => exact (endOp_spec u).bind fun _ w hw => .pure (hJ.same hu hw)
    | some i =>
      refine (filealloc_spec hJ hu).bind fun r w hw => ?_
      cases r with
      | none => exact putEnd_spec hJ (hw ▸ hu) List.not_mem_nil _
      | some f =>
        obtain ⟨hf, htype, rfl, hw⟩ := hw
        have hpos := (hJ.inv hw).file_pos hf
        have hvalid := ((hJ.inv hw).lock i List.mem_cons_self).2.1
        have htype : ((u.setFile f fun g => { g with ref := 1 }).file f).type ≠ .inode := by
          rwa [Kernel.setFile_type _ rfl]
        refine (fdalloc_spec hJ hw hf).bind fun r x hx => ?_
        cases r with
        | none =>
          refine (fileclose_spec hJ (hx ▸ hw) hf).bind fun _ y hy => ?_
          exact putEnd_spec hJ hy List.not_mem_nil _
        | some fd =>
          obtain ⟨hfd, rfl, hx⟩ := hx
          refine (iunlock_spec hJ hx List.mem_cons_self (mem_locks List.not_mem_nil)).bind fun _ y hy => ?_
          obtain ⟨hy, rfl⟩ := hy
          refine (endOp_spec _).bind fun _ z hz => ?_
          rw [ends_modify_bind]
          have hy := hJ.same hy hz
          refine .pure (hJ.table hy (Kernel.seats _) ((hJ.inv hy).install hf ?_ ?_ ?_ _ _))
          · rw [hz.file]
            exact hpos
          · rw [hz.file]
            exact htype
          · rw [hz.inode, Kernel.unlockedAt, Kernel.setInode_self]
            exact hvalid

theorem sysMake_spec (h : J H [] [] k) (path : Option Name) (type : Kind) (major minor : Int)
    (hcreate : ∀ s t major minor, path = some s → Same k t → Locks J H (create s type major minor) t) :
    Ends (sysMake path type major minor) k fun _ t => J H [] [] t := by
  refine (beginOp_spec k).bind fun _ t ht => ?_
  cases path with
  | none => exact (endOp_spec t).bind fun _ u hu => .pure (hJ.same (hJ.same h ht) hu)
  | some path =>
    refine Ends.bind (hcreate path t _ _ rfl ht) fun r u hu => ?_
    cases r with
    | none => exact (endOp_spec u).bind fun _ w hw => .pure (hJ.same hu hw)
    | some i => exact putEnd_spec hJ hu List.not_mem_nil _

/-- The call passes the permission check of `sys_exec`. -/
def Event.passes (v : Version) (k : Kernel) (e : Event) : Prop :=
  v = .a1 ∧ ∃ path args loads, e = .call (.exec (some path) args loads) ∧ k.Runnable path

/-- What a step keeps, if the calls that change directories and permissions keep it: only `exec`
leaves a reference over. -/
theorem step_spec (h : J H [] [] k) {e : Event}
    (hcreate : ∀ c path type t major minor, e = .call c → c.creates = some (path, type) → Same k t →
      Locks J H (create path type major minor) t)
    (hlink : ∀ old new, e = .call (.link old new) → Ends (sysLink old new) k fun _ t => J H [] [] t)
    (hunlink : ∀ path, e = .call (.unlink path) → Ends (sysUnlink path) k fun _ t => J H [] [] t)
    (hchmod : ∀ file mode, e = .call (.chmod file mode) →
      Ends (sysChmod file mode) k fun _ t => J H [] [] t)
    (ht : k.step e = some t) :
    (J H [] [] t ∧ ¬e.passes v k) ∨ ((∃ i, J (i :: H) [] [] t) ∧ e.passes v k) := by
  have hplain : (∀ path args loads, e ≠ .call (.exec path args loads)) → J H [] [] t →
      (J H [] [] t ∧ ¬e.passes v k) ∨ ((∃ i, J (i :: H) [] [] t) ∧ e.passes v k) := by
    intro he hj
    refine .inl ⟨hj, ?_⟩
    rintro ⟨-, path, args, loads, rfl, -⟩
    exact he _ _ _ rfl
  cases e with
  | fork => exact hplain (by simp) (after_spec (fork_spec hJ h) ht)
  | exit next =>
    obtain ⟨u, hu, ht⟩ := Option.bind_eq_some_iff.mp ht
    obtain ⟨w, hw, hfiles, hs, hfree⟩ := after_spec (exit_spec hJ h) hu
    exact hplain (by simp) (leave_spec hJ hw hfiles hfree hs ht)
  | switch next => exact hplain (by simp) (switch_spec hJ h ht)
  | call c =>
    obtain ⟨-, ht⟩ := Option.ite_none_right_eq_some.mp ht
    cases c with
    | «open» path omode =>
      refine hplain (by simp) (after_spec (sysOpen_spec hJ h path omode fun s t hs ho hk => ?_) ht)
      subst hs
      exact hcreate _ s .file t 0 0 rfl (if_pos ho) hk
    | close fd => exact hplain (by simp) (after_spec (sysClose_spec hJ h fd) ht)
    | dup fd => exact hplain (by simp) (after_spec (sysDup_spec hJ h fd) ht)
    | pipe ok page => exact hplain (by simp) (after_spec (sysPipe_spec hJ h ok page) ht)
    | read fd n io => exact hplain (by simp) (after_spec (sysRead_spec hJ h fd n io) ht)
    | write fd src io => exact hplain (by simp) (after_spec (sysWrite_spec hJ h fd src io) ht)
    | fstat fd st => exact hplain (by simp) (after_spec (sysFstat_spec hJ h fd st) ht)
    | link old new => exact hplain (by simp) (after_spec (hlink old new rfl) ht)
    | unlink path => exact hplain (by simp) (after_spec (hunlink path rfl) ht)
    | mkdir path =>
      refine hplain (by simp) (after_spec (sysMake_spec hJ h path .dir 0 0 fun s t ma mi hs hk => ?_) ht)
      subst hs
      exact hcreate _ s .dir t ma mi rfl rfl hk
    | mknod path major minor =>
      refine hplain (by simp) (after_spec (sysMake_spec hJ h path .dev major minor fun s t ma mi hs hk => ?_) ht)
      subst hs
      exact hcreate _ s .dev t ma mi rfl rfl hk
    | chdir path => exact hplain (by simp) (after_spec (sysChdir_spec hJ h path) ht)
    | chmod file mode => exact hplain (by simp) (after_spec (hchmod file mode rfl) ht)
    | exec path args loads =>
      obtain ⟨hj, hno⟩ | ⟨hj, hv⟩ | ⟨hj, hv, s, rfl, hrun⟩ := after_spec (sysExec_spec hJ h path args loads) ht
      · refine .inl ⟨hj, ?_⟩
        rintro ⟨hv, s, args', loads', he, hrun⟩
        simp only [Event.call.injEq, Call.exec.injEq] at he
        exact hno s he.1 hv hrun
      · refine .inl ⟨hj, ?_⟩
        rintro ⟨hv', -⟩
        exact absurd (hv.symm.trans hv') (by decide)
      · exact .inr ⟨hj, hv, s, args, loads, rfl, hrun⟩

end Steady

end Xv6.Files
