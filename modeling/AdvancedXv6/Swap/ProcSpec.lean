import AdvancedXv6.Swap.AllocSpec
import AdvancedXv6.Swap.FaultSpec

/-! Page directories that change hands between the kernel's variables and the process table, and
the changes to a process that leave its directory alone. -/

namespace Xv6.Swap
open Function Effect Ownership

variable {im : Image} {k k₀ k' : Kernel} {H H' : Held} {c d f i n p pg : Nat} {pr : Proc}
  {A : Nat → Kernel → Prop} {E : Panic → Kernel → Prop}

/-- The states differ in the process table, in the directory of the kernel and in what runs. -/
structure OnlyTable (k k' : Kernel) : Prop where
  eq : k' = { k with
    proc := k'.proc, kpgdir := k'.kpgdir, nextpid := k'.nextpid, initproc := k'.initproc
    cur := k'.cur, cr3 := k'.cr3, tlb := k'.tlb, trail := k'.trail }

theorem OnlyTable.mem (h : OnlyTable k k') : k'.mem = k.mem := by rw [h.eq]

theorem OnlyTable.entry (h : OnlyTable k k') (d pg : Nat) : k'.entry d pg = k.entry d pg := by
  rw [Kernel.entry, Kernel.entry, h.mem]

theorem OnlyTable.page (h : OnlyTable k k') (d pg : Nat) : k'.page d pg = k.page d pg := by
  have hc : k'.contents = k.contents := by
    funext a i
    cases a with
    | frame f => rw [Kernel.contents, Kernel.contents, h.mem]
    | slot n =>
      rw [Kernel.contents, Kernel.contents]
      rw [h.eq]
  rw [Kernel.page, Kernel.page, h.entry, hc]

theorem Sane.rename (h : Sane k H) (ho : OnlyTable k k') (hlive : ∀ d, k'.Live H' d → k.Live H d)
    (hsize : ∀ i, i < nProc → HasVm (k'.proc i).state → (k'.proc i).sz ≤ kernBase)
    (hgone : ∀ i, H'.gone = some i → (k'.proc i).state = .zombie)
    (hrun : ∀ p, k'.cur = some p →
      p < nProc ∧ (k'.proc p).state = .running ∧ k'.cr3 = (k'.proc p).pgdir) : Sane k' H' where
  unlocked := by
    rw [ho.eq]
    exact h.unlocked
  tH_nonneg := by
    rw [ho.eq]
    exact h.tH_nonneg
  nPg_ge := by
    rw [ho.eq]
    exact h.nPg_ge
  nPg_le := by
    rw [ho.eq]
    exact h.nPg_le
  perm d pg e n hd hpg he ha := by
    rw [ho.entry] at he
    rw [ho.eq]
    exact h.perm d pg e n (hlive d hd) hpg he ha
  upper d pg e hd hlo hpg he := by
    rw [ho.entry] at he
    exact h.upper d pg e (hlive d hd) hlo hpg he
  size := hsize
  gone := hgone
  run := hrun
  bufs := by
    rw [ho.eq]
    exact h.bufs

/-- The directories are the same, and each may have a new holder. -/
theorem Wf.rename (h : Wf im k H) (ho : OnlyTable k k') (φ : Nat → Holder → Holder)
    (hφ : ∀ x d, k'.Dir H' x d ↔ ∃ y, φ d y = x ∧ k.Dir H y d)
    (hkstack : ∀ i, (k'.proc i).kstack = (k.proc i).kstack) (hres : H'.res = H.res)
    (hlost : H'.lost = H.lost) (hdirs : H'.dirs.Nodup)
    (hsize : ∀ i, i < nProc → HasVm (k'.proc i).state → (k'.proc i).sz ≤ kernBase)
    (hgone : ∀ i, H'.gone = some i → (k'.proc i).state = .zombie)
    (hrun : ∀ p, k'.cur = some p →
      p < nProc ∧ (k'.proc p).state = .running ∧ k'.cr3 = (k'.proc p).pgdir) : Wf im k' H' where
  acc := by
    refine h.acc.rename φ hφ ho.mem ?_ ?_ ?_ ?_ hkstack hres hlost hdirs <;> rw [ho.eq]
  sane := by
    refine h.sane.rename ho (fun d hpost => ?_) hsize hgone hrun
    obtain ⟨x, hx⟩ := hpost
    obtain ⟨y, -, hy⟩ := (hφ x d).mp hx
    exact ⟨y, hy⟩

/-- The process `i` changes, but not its address space or its kernel stack. -/
theorem Wf.setProc (h : Wf im k H) (i : Nat) (pr : Proc)
    (hvm : HasVm pr.state ↔ HasVm (k.proc i).state) (hpgdir : pr.pgdir = (k.proc i).pgdir)
    (hkstack : pr.kstack = (k.proc i).kstack) (hsz : pr.sz = (k.proc i).sz ∨ pr.sz ≤ kernBase)
    (hgone : H.gone = some i → pr.state = .zombie) (hrun : k.cur = some i → pr.state = .running) :
    Wf im (k.setProc i pr) H := by
  have hproc (j : Nat) : (HasVm ((k.setProc i pr).proc j).state ↔ HasVm (k.proc j).state) ∧
      ((k.setProc i pr).proc j).pgdir = (k.proc j).pgdir ∧
      ((k.setProc i pr).proc j).kstack = (k.proc j).kstack ∧
      (((k.setProc i pr).proc j).sz = (k.proc j).sz ∨ ((k.setProc i pr).proc j).sz ≤ kernBase) := by
    by_cases hj : j = i
    · subst hj
      rw [setProc_self]
      exact ⟨hvm, hpgdir, hkstack, hsz⟩
    · rw [setProc_of_ne hj]
      exact ⟨Iff.rfl, rfl, rfl, .inl rfl⟩
  refine h.rename ⟨rfl⟩ (fun _ y => y) (fun x d => ?_) (fun j => (hproc j).2.2.1) rfl rfl
    h.acc.dirs_nodup (fun j hj hs => ?_) (fun j hj => ?_) fun q hq => ?_
  · simp only [exists_eq_left]
    cases x with
    | proc j => simp only [Kernel.Dir, (hproc j).1, (hproc j).2.1]
    | _ => exact Iff.rfl
  · rcases (hproc j).2.2.2 with hsame | hle
    · rw [hsame]
      exact h.sane.size j hj ((hproc j).1.mp hs)
    · exact hle
  · by_cases hji : j = i
    · subst hji
      rw [setProc_self]
      exact hgone hj
    · rw [setProc_of_ne hji]
      exact h.sane.gone j hj
  · obtain ⟨hlt, hst, hcr3⟩ := h.sane.run q hq
    refine ⟨hlt, ?_, hcr3.trans (hproc q).2.1.symm⟩
    by_cases hqi : q = i
    · subst hqi
      rw [setProc_self]
      exact hrun hq
    · rw [setProc_of_ne hqi]
      exact hst

/-- The kernel stack of `i` is replaced by `f`. -/
def Kernel.setStack (k : Kernel) (i f : Nat) : Kernel :=
  k.setProc i { k.proc i with kstack := f }

theorem onlyTable_setStack : OnlyTable k (k.setStack i f) := ⟨rfl⟩

theorem proc_setStack (j : Nat) : ((k.setStack i f).proc j).state = (k.proc j).state ∧
    ((k.setStack i f).proc j).pgdir = (k.proc j).pgdir ∧
    ((k.setStack i f).proc j).sz = (k.proc j).sz := by
  by_cases hj : j = i
  · subst hj
    rw [Kernel.setStack, setProc_self]
    exact ⟨rfl, rfl, rfl⟩
  · rw [Kernel.setStack, setProc_of_ne hj]
    exact ⟨rfl, rfl, rfl⟩

theorem Sane.setStack (h : Sane k H) : Sane (k.setStack i f) H := by
  refine h.rename onlyTable_setStack (fun d hd => live_setKstack.mp hd) (fun j hj hs => ?_)
    (fun j hj => ?_) fun q hq => ?_
  · rw [(proc_setStack j).1] at hs
    rw [(proc_setStack j).2.2]
    exact h.size j hj hs
  · rw [(proc_setStack j).1]
    exact h.gone j hj
  · rw [(proc_setStack q).1, (proc_setStack q).2.1]
    exact h.run q hq

theorem Wf.setStack (h : Wf im k (H.hold (.frame f))) (hi : i < nProc)
    (hold : (k.proc i).kstack = nullFrame) : Wf im (k.setStack i f) H :=
  ⟨h.acc.setKstack hi hold, (h.sane.held (G := H) rfl rfl).setStack⟩

theorem Wf.clearStack (h : Wf im k H) (hi : i < nProc) (hne : (k.proc i).kstack ≠ nullFrame) :
    Wf im (k.setStack i nullFrame) (H.hold (.frame (k.proc i).kstack)) :=
  ⟨h.acc.clearKstack hi hne, h.sane.setStack.held rfl rfl⟩

/-- A directory in a local variable is given to a process that has none. -/
theorem Wf.install (h : Wf im k (H.build c)) (hi : i < nProc) (hno : ¬HasVm (k.proc i).state)
    (hvm : Evictable pr.state) (hpgdir : pr.pgdir = c) (hkstack : pr.kstack = (k.proc i).kstack)
    (hsz : pr.sz ≤ kernBase) : Wf im (k.setProc i pr) H := by
  have hgone : H.gone ≠ some i := fun hg => hno (.inr (h.sane.gone i hg))
  obtain ⟨hc, hdirs⟩ := List.nodup_cons.mp h.acc.dirs_nodup
  have hnot := h.acc.not_live
  have hpr : (k.setProc i pr).proc i = pr := setProc_self
  have hother {j : Nat} (hj : j ≠ i) : (k.setProc i pr).proc j = k.proc j := setProc_of_ne hj
  classical
  refine h.rename ⟨rfl⟩ (fun d y => if d = c then .proc i else y) (fun x d => ?_) (fun j => ?_) rfl
    rfl hdirs (fun j hj hs => ?_) (fun j hj => ?_) fun q hq => ?_
  · by_cases hd : d = c
    · subst hd
      simp only [if_true]
      constructor
      · intro hx
        by_cases hxi : x = .proc i
        · exact ⟨.held, hxi.symm, List.mem_cons_self⟩
        · refine absurd ⟨x, ?_⟩ hnot
          cases x with
          | proc j =>
            have hj : j ≠ i := fun e => hxi (e ▸ rfl)
            simpa only [Kernel.Dir, hother hj] using hx
          | _ => exact hx
      · rintro ⟨y, rfl, -⟩
        exact ⟨hi, by rw [hpr]; exact .inl hvm, hgone, by rw [hpr, hpgdir]⟩
    · simp only [if_neg hd, exists_eq_left]
      cases x with
      | proc j =>
        by_cases hj : j = i
        · subst hj
          simp only [Kernel.Dir, hpr, hpgdir, hno, false_and, and_false, iff_false]
          exact fun hx => hd hx.2.2.2.symm
        · simp only [Kernel.Dir, hother hj]
          exact Iff.rfl
      | kernel => exact Iff.rfl
      | held =>
        simp only [Kernel.Dir, Held.build, List.mem_cons, hd, false_or]
  · by_cases hj : j = i
    · subst hj
      rw [hpr, hkstack]
    · rw [hother hj]
  · by_cases hji : j = i
    · subst hji
      rw [hpr]
      exact hsz
    · rw [hother hji] at hs ⊢
      exact h.sane.size j hj hs
  · have hji : j ≠ i := fun e => hgone (e ▸ hj)
    rw [hother hji]
    exact h.sane.gone j hj
  · obtain ⟨hlt, hst, hcr3⟩ := h.sane.run q hq
    have hqi : q ≠ i := by
      rintro rfl
      exact hno (.inl (by rw [hst]; exact .inr (.inl rfl)))
    rw [hother hqi]
    exact ⟨hlt, hst, hcr3⟩

/-- The directory of a zombie is about to be torn down. -/
theorem Wf.detach (h : Wf im k H) (hi : i < nProc) (hz : (k.proc i).state = .zombie)
    (hgone : H.gone = none) :
    Wf im k ({ H with gone := some i }.build (k.proc i).pgdir) := by
  have hdir : k.Dir H (.proc i) (k.proc i).pgdir := ⟨hi, .inr hz, by rw [hgone]; simp, rfl⟩
  have huniq {x : Holder} (hx : k.Dir H x (k.proc i).pgdir) : x = .proc i := by
    have := h.acc.exact.unique (r := .dir x) (s := .dir (.proc i)) ⟨_, hx, rfl⟩ ⟨_, hdir, rfl⟩
    cases this
    rfl
  classical
  refine h.rename ⟨rfl⟩ (fun d y => if d = (k.proc i).pgdir then .held else y) (fun x d => ?_)
    (fun _ => rfl) rfl rfl (List.nodup_cons.mpr ⟨fun hm => ?_, h.acc.dirs_nodup⟩) h.sane.size
    (fun j hj => ?_) h.sane.run
  · by_cases hd : d = (k.proc i).pgdir
    · subst hd
      simp only [if_true]
      constructor
      · intro hx
        refine ⟨.proc i, ?_, hdir⟩
        cases x with
        | held => rfl
        | kernel =>
          have := huniq (x := .kernel) hx
          cases this
        | proc j =>
          obtain ⟨hj, hvm, hne, hpg⟩ := hx
          have := huniq (x := .proc j) ⟨hj, hvm, by rw [hgone]; simp, hpg⟩
          cases this
          exact absurd rfl hne
      · rintro ⟨y, rfl, -⟩
        exact List.mem_cons_self
    · simp only [if_neg hd, exists_eq_left]
      cases x with
      | held => simp only [Kernel.Dir, Held.build, List.mem_cons, hd, false_or]
      | kernel => exact Iff.rfl
      | proc j =>
        constructor
        · rintro ⟨hj, hvm, -, hpg⟩
          exact ⟨hj, hvm, by rw [hgone]; simp, hpg⟩
        · rintro ⟨hj, hvm, -, hpg⟩
          refine ⟨hj, hvm, fun hg => ?_, hpg⟩
          cases hg
          exact hd hpg.symm
  · have := huniq (x := .held) hm
    cases this
  · cases hj
    exact hz

/-- A zombie without a directory becomes an unused slot of the process table. -/
theorem Wf.unzombie (h : Wf im k { H with gone := some i }) (hno : ¬HasVm pr.state)
    (hkstack : pr.kstack = (k.proc i).kstack) (hcur : k.cur ≠ some i) (hgone : H.gone = none) :
    Wf im (k.setProc i pr) H := by
  have hpr : (k.setProc i pr).proc i = pr := setProc_self
  have hother {j : Nat} (hj : j ≠ i) : (k.setProc i pr).proc j = k.proc j := setProc_of_ne hj
  refine h.rename ⟨rfl⟩ (fun _ y => y) (fun x d => ?_) (fun j => ?_) rfl rfl h.acc.dirs_nodup
    (fun j hj hs => ?_) (fun j hj => by rw [hgone] at hj; cases hj) fun q hq => ?_
  · simp only [exists_eq_left]
    cases x with
    | proc j =>
      by_cases hj : j = i
      · subst hj
        simp only [Kernel.Dir, hpr, hno, false_and, and_false, ne_eq, not_true_eq_false]
      · simp only [Kernel.Dir, hother hj, hgone]
        have : some i ≠ some j := fun e => hj (Option.some.inj e).symm
        simp [this]
    | _ => exact Iff.rfl
  · by_cases hj : j = i
    · subst hj
      rw [hpr, hkstack]
    · rw [hother hj]
  · have hji : j ≠ i := by
      rintro rfl
      rw [hpr] at hs
      exact hno hs
    rw [hother hji] at hs ⊢
    exact h.sane.size j hj hs
  · have hqi : q ≠ i := by
      rintro rfl
      exact hcur hq
    rw [hother hqi]
    exact h.sane.run q hq

end Xv6.Swap
