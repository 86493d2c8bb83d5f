import AdvancedXv6.Files.Check

/-! A mode that `chmod` has given to an inode is in effect until the next one or until the inode is
freed. -/

namespace Xv6.Files
open Function Effect Run

variable {v : Version} {H G L : List Nat} {k t u : Kernel} {i n m : Nat} {e : Event} {es : List Event}
  {new old : List Note} {img : Image}

/-- The inode is neither given a mode nor freed. -/
def Untouched (n : Nat) (new : List Note) : Prop := .freed n ∉ new ∧ ∀ m, .chmod n m ∉ new

/-- Whatever process runs, its calls on the inode are refused where the mode lacks their bit, and only
there. -/
structure Kernel.Enforces (k : Kernel) (n mode : Nat) : Prop where
  read : ∀ fd f i N io, k.proc.ofile fd = some f → (k.file f).type = .inode → (k.file f).ip = some i →
    (k.inode i).inum = n → ((∃ t, sysRead fd (some N) io k = .ok .denied t) ↔ mode.testBit 0 = false)
  write : ∀ fd f i src io, k.proc.ofile fd = some f → (k.file f).type = .inode → (k.file f).ip = some i →
    (k.inode i).inum = n → ((∃ t, sysWrite fd (some src) io k = .ok .denied t) ↔ mode.testBit 1 = false)
  exec : ∀ path args loads i s, namei path k.begun = .ok (some i) s → (s.inode i).inum = n →
    (s.dinode n).type ≠ .free →
    ((∃ t, sysExec (some path) args loads k = .ok .denied t) ↔ mode.testBit 2 = false)

/-- Resolving a path gives no mode to any inode. -/
theorem namei_granted (h : Inv v H G L k) {path : Name} {r : Option Nat} (hr : namei path k = .ok r t) (n : Nat) :
    granted t.notes n = granted k.notes n := by
  have hJ := steady_story (v := v) (P := fun _ ns => ∀ n, granted ns n = granted k.notes n)
    (fun _ _ _ h n => h n) fun _ _ _ h n => h n
  have := (namei_spec hJ (k := k) ⟨h, fun _ => rfl⟩ path).ok hr
  cases r with
  | none => exact this.2 n
  | some i => exact this.2 n

/-- The mode in effect is enforced. -/
theorem Inv.enforces (h : Inv .a1 H G [] k) (n : Nat) : k.Enforces n (granted k.notes n) where
  read fd f i N io hofile htype hip hn := by
    rw [sysRead_eq h hofile htype hip, hn]
    cases (granted k.notes n).testBit 0 with
    | true => exact iff_of_false (fun ⟨t, ht⟩ => map_int_ne_denied _ _ t ht) (by simp)
    | false => exact iff_of_true ⟨_, rfl⟩ rfl
  write fd f i src io hofile htype hip hn := by
    rw [sysWrite_eq h hofile htype hip, hn]
    cases (granted k.notes n).testBit 1 with
    | true => exact iff_of_false (fun ⟨t, ht⟩ => map_int_ne_denied _ _ t ht) (by simp)
    | false => exact iff_of_true ⟨_, rfl⟩ rfl
  exec path args loads i s hres hn htype := by
    rw [sysExec_denied h hres (hn ▸ htype) args loads, hn, namei_granted (k.same_begun.inv h) hres]
    rfl

theorem granted_append (hmode : ∀ m, .chmod n m ∉ new) (hnew : .created n ∉ new) :
    granted (new ++ old) n = granted old n := by
  induction new with
  | nil => rfl
  | cons x new ih =>
    have ih := ih (fun m hm => hmode m (List.mem_cons_of_mem _ hm)) fun hm => hnew (List.mem_cons_of_mem _ hm)
    rw [List.cons_append]
    cases x with
    | created m =>
      have hne : m ≠ n := fun hm => hnew (hm ▸ List.mem_cons_self)
      rw [granted, if_neg hne, ih]
    | chmod m mode =>
      have hne : m ≠ n := fun hm => hmode mode (hm ▸ List.mem_cons_self)
      rw [granted, if_neg hne, ih]
    | freed m => exact ih
    | consulted m => exact ih

/-- What `granted` is since an inode has been given a mode or has begun. -/
theorem granted_since (h : Reaches Kernel.step (img.boot v) k) {x : Note} (hns : k.notes = new ++ x :: old)
    (hx : x = .created n ∨ ∃ m, x = .chmod n m) (hnew : Untouched n new) :
    granted k.notes n = granted (x :: old) n := by
  have := told_reaches h n new x old hns hx hnew.1
  rw [hns, granted_append hnew.2 this.1]

/-- A successful call gives the mode to the inode that the path resolves to. -/
theorem sysChmod_noted (h : Inv v H [] [] k) (path : Name) (mode : Int) :
    Ends (sysChmod (some path) mode) k fun r t => r = .int 0 → ∃ i s new, namei path k.begun = .ok (some i) s ∧
      t.notes = new ++ .chmod (s.inode i).inum mode.toNat :: s.notes := by
  refine .ite (fun _ => .pure fun hr => absurd hr (by decide)) fun _ => ?_
  rw [beginOp, ends_modify_bind]
  refine (namei_spec (steady_inv v) (k.same_begun.inv h) path).self.bind fun r s hs => ?_
  obtain ⟨hres, hs⟩ := hs
  cases r with
  | none => exact (endOp_spec s).bind fun _ t ht => .pure fun hr => absurd hr (by decide)
  | some i =>
    refine (ilock_spec (steady_inv v) hs (hs.held i List.mem_cons_self)).bind fun _ w hw => ?_
    obtain ⟨hw, hi, rfl⟩ := hw
    rw [ends_modify_bind]
    refine (iupdate_state _ i fun d => { d with perm := (mode.toNat ^^^ 7) &&& 7 }).bind fun _ x hx => ?_
    rw [ends_modify_bind, hx]
    have hperm := hw.chmod List.mem_cons_self mode.toNat
    rw [← Kernel.updated_inum _ i fun d => { d with perm := (mode.toNat ^^^ 7) &&& 7 }] at hperm
    have hJ := steady_story (v := v) (P := fun _ ns => ∃ new, ns = new ++ .chmod (s.inode i).inum mode.toNat :: s.notes)
      (fun _ _ n hns => hns.elim fun new hnew => ⟨.freed n :: new, hnew ▸ rfl⟩)
      fun _ _ j hns => hns.elim fun new hnew => ⟨.consulted j :: new, hnew ▸ rfl⟩
    refine (putEnd_spec hJ ⟨hperm, [], ?_⟩ hi _).mono fun r t ht _ => ?_
    · rw [Kernel.updated_inum, Kernel.lockedAt, Kernel.setInode_self]
      rfl
    · obtain ⟨-, new, hnew⟩ := ht
      exact ⟨i, s, new, hres, hnew⟩

theorem enforces_since (h : Reaches Kernel.step (img.boot .a1) k) {x : Note} (hns : k.notes = new ++ x :: old)
    (hx : x = .created n ∨ ∃ m, x = .chmod n m) (hm : granted (x :: old) n = m) (hnew : Untouched n new) :
    k.Enforces n m := by
  obtain ⟨H, hk⟩ := inv_reaches h
  rw [← hm, ← granted_since h hns hx hnew]
  exact hk.enforces n

/-- From a successful `chmod` the mode is enforced, and from its beginning every inode has all
permissions, until the next `chmod` of the inode or until it is freed. -/
theorem chmod_enforced (img : Image) (h : Reaches Kernel.step (img.boot .a1) k) :
    (∀ path mode t, sysChmod (some path) mode k = .ok (.int 0) t →
      ∃ i s, namei path k.begun = .ok (some i) s ∧ ∀ es u, Run.exec Kernel.step t es = some u →
        ∃ new, u.notes = new ++ .chmod (s.inode i).inum mode.toNat :: s.notes ∧
          (Untouched (s.inode i).inum new → u.Enforces (s.inode i).inum mode.toNat)) ∧
    (∀ e t n, k.step e = some t → (k.dinode n).type = .free → (t.dinode n).type ≠ .free →
      ∀ es u, Run.exec Kernel.step t es = some u →
        ∃ new old, u.notes = new ++ .created n :: (old ++ k.notes) ∧ (Untouched n new → u.Enforces n 7)) := by
  obtain ⟨H, hk⟩ := inv_reaches h
  constructor
  · intro path mode t hrun
    obtain ⟨i, s, new, hres, hnew⟩ := (sysChmod_noted hk path mode).ok hrun rfl
    refine ⟨i, s, hres, fun es u hes => ?_⟩
    have ht : k.step (.call (.chmod (some path) mode)) = some t := by
      have hknown : (Call.chmod (some path) mode).known k.version = true := by
        rw [hk.version]
        rfl
      rw [Kernel.step, if_pos hknown, Kernel.after, Call.perform, hrun]
    obtain ⟨H', htinv⟩ := step_exists_inv hk ht
    obtain ⟨more, hmore, -⟩ := since_exec htinv hes
    rw [hnew, ← List.append_assoc] at hmore
    refine ⟨more ++ new, hmore, enforces_since ((h.next ht).exec hes) hmore (.inr ⟨_, rfl⟩) ?_⟩
    rw [granted, if_pos rfl]
  · intro e t n ht hfree htype es u hes
    have hall : Run.exec Kernel.step k (e :: es) = some u := (exec_cons ht).trans hes
    obtain ⟨H', htinv⟩ := step_exists_inv hk ht
    obtain ⟨new, hnew, hmem⟩ := since_exec hk (exec_cons ht : Run.exec Kernel.step k [e] = some t)
    obtain ⟨a, b, hab⟩ := List.append_of_mem (hmem n hfree htype)
    obtain ⟨more, hmore, -⟩ := since_exec htinv hes
    have hu : u.notes = (more ++ a) ++ .created n :: (b ++ k.notes) := by
      rw [hmore, hnew, hab]
      simp only [List.append_assoc, List.cons_append]
    refine ⟨more ++ a, b, hu, enforces_since (h.exec hall) hu (.inl rfl) ?_⟩
    rw [granted, if_pos rfl]

/-- After `chmod` has taken the permission to write away, the file can be opened for writing and not be
written. -/
theorem chmod_enforced_shell : ∃ t u w, sysChmod (some [slash, 115, 104]) 5 (Image.shell.boot .a1) = .ok (.int 0) t ∧
    Run.exec Kernel.step t [.call (.open (some [slash, 115, 104]) 1)] = some u ∧
    sysWrite 0 (some [7]) 0 u = .ok .denied w := by
  have hrun : (match sysChmod (some [slash, 115, 104]) 5 (Image.shell.boot .a1) with
      | .ok (.int 0) t => (Run.exec Kernel.step t [.call (.open (some [slash, 115, 104]) 1)]).map fun u =>
          (u.notes, u.proc.ofile 0, (u.file 0).type, (u.file 0).ip, (u.inode 1).inum)
      | _ => none) = some ([.chmod 2 5], some 0, .inode, some 1, 2) := by
    decide +kernel
  split at hrun
  · rename_i t ht
    obtain ⟨u, hu, hr⟩ := Option.map_eq_some_iff.mp hrun
    obtain ⟨i, s, -, hall⟩ := (chmod_enforced Image.shell (Reaches.refl _)).1 _ _ _ ht
    obtain ⟨new, hnotes, hen⟩ := hall _ u hu
    simp only [Prod.mk.injEq] at hr
    obtain ⟨hns, hofile, htype, hip, hinum⟩ := hr
    rw [hns] at hnotes
    obtain ⟨rfl, hlast⟩ : new = [] ∧ Note.chmod 2 5 = .chmod (s.inode i).inum 5 := by
      cases new with
      | nil => exact ⟨rfl, (List.cons.inj hnotes).1⟩
      | cons x new => exact absurd (List.cons.inj hnotes).2 (by simp)
    obtain ⟨hn, -⟩ := Note.chmod.inj hlast
    rw [← hn] at hen
    have hen := hen ⟨List.not_mem_nil, fun m => List.not_mem_nil⟩
    obtain ⟨w, hw⟩ := (hen.write 0 0 1 [7] 0 hofile htype hip hinum).mpr rfl
    exact ⟨t, u, w, ht, hu, hw⟩
  · exact absurd hrun (by simp)

end Xv6.Files
