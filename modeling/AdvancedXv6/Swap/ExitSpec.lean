import AdvancedXv6.Swap.SyscallSpec

/-! The end of a process, pipes, the scheduler and page faults: each keeps the memory accounted
for. -/

namespace Xv6.Swap
open Function Effect Ownership

variable {im : Image} {k k₀ k₁ k₂ k₃ k' : Kernel} {H : Held} {c d f i j n p q va pg sz : Nat}
  {e w : Word} {pr pr' : Proc} {E : Panic → Kernel → Prop} {lost ns : List Nat} {s : ProcState}

/-! ### Changes to the process table -/

/-- Processes changed, but not their address spaces and kernel stacks. -/
theorem Good.table (h : Good im k lost) (ho : OnlyTable k k')
    (hvm : ∀ i, HasVm (k'.proc i).state ↔ HasVm (k.proc i).state)
    (hunused : ∀ i, (k'.proc i).state = .unused ↔ (k.proc i).state = .unused)
    (hpgdir : ∀ i, (k'.proc i).pgdir = (k.proc i).pgdir)
    (hkstack : ∀ i, (k'.proc i).kstack = (k.proc i).kstack)
    (hsz : ∀ i, (k'.proc i).sz = (k.proc i).sz) (hkpgdir : k'.kpgdir = k.kpgdir)
    (hrun : ∀ p, k'.cur = some p →
      p < nProc ∧ (k'.proc p).state = .running ∧ k'.cr3 = (k'.proc p).pgdir) : Good im k' lost where
  wf := by
    refine h.wf.rename ho (fun _ y => y) (fun x d => ?_) hkstack rfl rfl h.wf.acc.dirs_nodup
      (fun i hi hs => ?_) (by rintro _ ⟨⟩) hrun
    · simp only [exists_eq_left]
      cases x with
      | proc i => simp only [Kernel.Dir, hvm, hpgdir]
      | kernel => simp only [Kernel.Dir, hkpgdir]
      | held => exact Iff.rfl
    · rw [hsz]
      exact h.wf.sane.size i hi ((hvm i).mp hs)
  ends.tails i hi hs pg hlo hpg := by
    rw [ho.page, hpgdir]
    rw [hsz] at hlo
    exact h.ends.tails i hi ((hvm i).mp hs) pg hlo hpg
  ends.kstacks i hi := by
    rw [hunused, hkstack]
    exact h.ends.kstacks i hi

/-- One process goes from one state with an address space to another. -/
theorem Good.setProc (h : Good im k lost) (i : Nat) (pr : Proc)
    (hvm : HasVm (k.proc i).state) (hvm' : HasVm pr.state)
    (hpgdir : pr.pgdir = (k.proc i).pgdir) (hkstack : pr.kstack = (k.proc i).kstack)
    (hsz : pr.sz = (k.proc i).sz) (ho : OnlyTable k k') (hproc : k'.proc = update k.proc i pr)
    (hkpgdir : k'.kpgdir = k.kpgdir)
    (hrun : ∀ p, k'.cur = some p →
      p < nProc ∧ (k'.proc p).state = .running ∧ k'.cr3 = (k'.proc p).pgdir) : Good im k' lost := by
  have hne {s : ProcState} (hs : HasVm s) : s ≠ .unused := by
    rintro rfl
    exact not_hasVm_unused hs
  have hcases (j : Nat) : k'.proc j = pr ∧ j = i ∨ k'.proc j = k.proc j ∧ j ≠ i := by
    rw [hproc]
    by_cases hj : j = i
    · subst hj
      exact .inl ⟨update_self _ _ _, rfl⟩
    · exact .inr ⟨update_of_ne hj _ _, hj⟩
  refine h.table ho (fun j => ?_) (fun j => ?_) (fun j => ?_) (fun j => ?_) (fun j => ?_) hkpgdir hrun
  all_goals rcases hcases j with ⟨hj, rfl⟩ | ⟨hj, -⟩ <;> rw [hj]
  · exact iff_of_true hvm' hvm
  · exact iff_of_false (hne hvm') (hne hvm)
  · exact hpgdir
  · exact hkstack
  · exact hsz

theorem hasVm_running : HasVm .running := .inl (.inr (.inl rfl))

theorem hasVm_runnable : HasVm .runnable := .inl (.inl rfl)

theorem hasVm_sleeping : HasVm .sleeping := .inl (.inr (.inr rfl))

theorem Good.hasVm_cur (h : Good im k lost) (hp : k.cur = some p) : HasVm (k.proc p).state := by
  rw [(h.wf.sane.run p hp).2.1]
  exact hasVm_running

/-! ### `exit` -/

theorem proc_reparent : (k.reparent p i).state = (k.proc i).state ∧
    (k.reparent p i).pgdir = (k.proc i).pgdir ∧ (k.reparent p i).kstack = (k.proc i).kstack ∧
    (k.reparent p i).sz = (k.proc i).sz := by
  rw [Kernel.reparent]
  split <;> exact ⟨rfl, rfl, rfl, rfl⟩

theorem Good.reparent (h : Good im k lost) (p : Nat) :
    Good im { k with proc := k.reparent p } lost :=
  h.table ⟨rfl⟩ (fun _ => by rw [proc_reparent.1]) (fun _ => by rw [proc_reparent.1])
    (fun _ => proc_reparent.2.1) (fun _ => proc_reparent.2.2.1) (fun _ => proc_reparent.2.2.2) rfl
    fun q hq => by
      rw [proc_reparent.1, proc_reparent.2.1]
      exact h.wf.sane.run q hq

/-- The process that runs leaves the CPU in the state `s`; the kernel's own table is loaded. -/
def Kernel.leave (k : Kernel) (p : Nat) (s : ProcState) : Kernel :=
  { k.setProc p { k.proc p with state := s } with cur := none }.lcr3 k.kpgdir

theorem Good.leave (h : Good im k lost) (hp : HasVm (k.proc p).state) (hs : HasVm s) :
    Good im (k.leave p s) lost :=
  h.setProc p { k.proc p with state := s } hp hs rfl rfl rfl ⟨rfl⟩ rfl rfl (by rintro _ ⟨⟩)

theorem proc_leave (j : Nat) : (k.leave p s).proc j = if j = p then { k.proc p with state := s } else k.proc j := by
  show update k.proc p _ j = _
  by_cases hj : j = p
  · rw [hj, update_self, if_pos rfl]
  · rw [update_of_ne hj, if_neg hj]

theorem space_leave_of_ne (hj : j ≠ p) : (k.leave p s).space j = k.space j := by
  have hproc : (k.leave p s).proc j = k.proc j := by rw [proc_leave, if_neg hj]
  exact OnlyTable.space ⟨rfl⟩ (by rw [hproc]) (by rw [hproc]) (by rw [hproc])

theorem sameSpaces_leave (hp : Evictable (k.proc p).state) (hs : Evictable s) : SameSpaces k (k.leave p s) := by
  intro j _
  by_cases hj : j = p
  · have hproc : (k.leave p s).proc j = { k.proc p with state := s } := by rw [proc_leave, if_pos hj]
    subst hj
    exact OnlyTable.space ⟨rfl⟩ (by rw [hproc]; exact iff_of_true hs hp) (by rw [hproc]) (by rw [hproc])
  · exact space_leave_of_ne hj

theorem sameSpaces_reparent (p : Nat) : SameSpaces k { k with proc := k.reparent p } := fun _ _ =>
  OnlyTable.space ⟨rfl⟩ (by rw [proc_reparent.1]) proc_reparent.2.2.2 proc_reparent.2.1

theorem not_evictable_zombie : ¬Evictable .zombie := by
  rintro (h | h | h) <;> cases h

theorem space_leave_zombie : (k.leave p .zombie).space p = none :=
  space_none (by rw [proc_leave, if_pos rfl]; exact not_evictable_zombie)

theorem exit_spec (h : Good im k lost) (hp : k.cur = some p) :
    wp exit k (fun _ k' => Good im k' lost ∧ k'.cur = none ∧ k'.Tight ∧ Leaves k k' p)
      (fun e _ => e = .initExiting) := by
  rw [exit, myproc, switchkvm]
  simp only [wp_bind, wp_get, hp, wp_pure]
  by_cases hi : p = k.initproc
  · rw [if_pos hi, wp_bind, wp_throw]
  · rw [if_neg hi]
    simp only [wp_bind, wp_modify]
    have hr := h.reparent p
    exact ⟨hr.leave (hr.hasVm_cur (p := p) hp) (.inr rfl), rfl, tight_lcr3 _,
      fun j hj hjp => (space_leave_of_ne hjp).trans (sameSpaces_reparent p j hj),
      space_leave_zombie⟩

theorem sched_spec (h : Good im k lost) (hp : k.cur = some p) (hs : Evictable s) :
    wp (sched s) k (fun _ k' => Good im k' lost ∧ k'.cur = none ∧ k'.Tight ∧ SameSpaces k k') E := by
  rw [sched, myproc, switchkvm]
  simp only [wp_bind, wp_get, hp, wp_pure, wp_modify]
  exact ⟨h.leave (h.hasVm_cur hp) (.inl hs), rfl, tight_lcr3 _, sameSpaces_leave (h.evictable_cur hp) hs⟩

theorem dispatch_spec (h : Good im k lost) (hq : q < nProc) (hs : (k.proc q).state = .runnable) :
    wp (dispatch q) k (fun _ k' => Good im k' lost ∧ k'.cur = some q ∧ k'.Tight ∧ SameSpaces k k') E := by
  rw [dispatch, switchuvm]
  simp only [wp_bind, wp_modify]
  refine ⟨h.setProc q { k.proc q with state := .running } (hs ▸ hasVm_runnable)
    hasVm_running rfl rfl rfl ⟨rfl⟩ rfl rfl fun r hr => ?_, rfl, fun pg _ hl => ?_, fun j _ => ?_⟩
  · obtain rfl : q = r := Option.some.inj hr
    refine ⟨hq, ?_, ?_⟩
    · show (update k.proc q _ q).state = _
      rw [update_self]
    · show (k.proc q).pgdir = (update k.proc q _ q).pgdir
      rw [update_self]
      rfl
  · exact not_stale_lcr3 (k := { k with cur := some q }) (k.proc q).pgdir hl.1
  · by_cases hj : j = q
    · subst hj
      refine OnlyTable.space ⟨rfl⟩ ?_ ?_ ?_ <;> rw [setProc_self]
      · exact iff_of_true (.inr (.inl rfl)) (hs ▸ .inl rfl)
      · rfl
      · rfl
    · refine OnlyTable.space ⟨rfl⟩ ?_ ?_ ?_ <;> rw [setProc_of_ne hj]
      · exact Iff.rfl
      · rfl
      · rfl

/-! ### `wait` -/

/-- The state after `wait` has reaped `i`. -/
def Kernel.reap (k : Kernel) (i : Nat) : Kernel :=
  k.setProc i { k.proc i with pid := 0, parent := none, killed := false, state := .unused }

theorem onlyTable_reap : OnlyTable k (k.reap i) := ⟨rfl⟩

theorem Good.reap (h : Good im k lost) (hi : i < nProc) (hz : (k.proc i).state = .zombie)
    (hcur : k.cur ≠ some i) (hcalm : Calm (k.setStack i nullFrame) k₂)
    (hm : Mild (k.setStack i nullFrame) k₂ { leaving lost with gone := some i })
    (hw : Wf im k₂ { leaving lost with gone := some i }) : Good im (k₂.reap i) lost := by
  have hself : (k₂.reap i).proc i = _ := setProc_self
  have hrest {j : Nat} (hj : j ≠ i) : (k₂.reap i).proc j = k₂.proc j := setProc_of_ne hj
  have hother {j : Nat} (hj : j ≠ i) : ∃ r, k₂.proc j = { k.proc j with rss := r } := by
    obtain ⟨r, hr⟩ := hcalm.proc j
    exact ⟨r, by rw [hr, Kernel.setStack, setProc_of_ne hj]⟩
  refine ⟨hw.unzombie not_hasVm_unused rfl (hcalm.cur ▸ hcur) rfl, fun j hj hs pg hlo hpg => ?_,
    fun j hj => ?_⟩
  · by_cases hji : j = i
    · subst hji
      rw [hself] at hs
      exact absurd hs not_hasVm_unused
    · rw [hrest hji] at hs hlo
      rw [onlyTable_reap.page, hrest hji]
      obtain ⟨r, hr⟩ := hother hji
      rw [hr] at hs hlo ⊢
      have hd : (k.setStack i nullFrame).Live { leaving lost with gone := some i }
          (k.proc j).pgdir := by
        refine ⟨.proc j, hj, ?_, ?_, (proc_setStack j).2.1⟩
        · rw [(proc_setStack j).1]
          exact hs
        · exact fun e => hji (Option.some.inj e).symm
      show k₂.page (k.proc j).pgdir pg = none
      rw [hm.page _ pg hd hpg, onlyTable_setStack.page]
      exact h.ends.tails j hj hs pg hlo hpg
  · by_cases hji : j = i
    · subst hji
      rw [hself]
      refine iff_of_true rfl ?_
      show (k₂.proc j).kstack = nullFrame
      rw [hcalm.kstack, Kernel.setStack, setProc_self]
    · rw [hrest hji]
      obtain ⟨r, hr⟩ := hother hji
      rw [hr]
      exact h.ends.kstacks j hj

theorem sameSpaces_reap (hz : (k.proc i).state = .zombie)
    (hcalm : Calm (k.setStack i nullFrame) k₂)
    (hm : Mild (k.setStack i nullFrame) k₂ { leaving lost with gone := some i }) :
    SameSpaces k (k₂.reap i) := by
  intro j hj
  by_cases hji : j = i
  · subst hji
    refine (space_none ?_).trans (space_none (hz ▸ not_evictable_zombie)).symm
    rw [show (k₂.reap j).proc j = _ from setProc_self]
    exact not_evictable_unused
  · obtain ⟨r, hr⟩ := hcalm.proc j
    have hproc : (k₂.reap i).proc j = { k.proc j with rss := r } := by
      rw [Kernel.reap, setProc_of_ne hji, hr, Kernel.setStack, setProc_of_ne hji]
    refine space_congr (by rw [hproc]) (by rw [hproc]) fun hev pg hpg => ?_
    rw [hproc, onlyTable_reap.page]
    refine (hm.page _ pg ⟨.proc j, hj, ?_, fun e => hji (Option.some.inj e).symm, (proc_setStack j).2.1⟩ hpg).trans
      (onlyTable_setStack.page _ pg)
    rw [(proc_setStack j).1]
    exact .inl hev

theorem wait_spec (h : Good im k lost) (hp : k.cur = some p) :
    wp (wait im) k
      (fun _ k' => Good im k' lost ∧ k'.cur = some p ∧ (k.Tight → k'.Tight) ∧ SameSpaces k k') E := by
  obtain ⟨hlt, hst, hcr3⟩ := h.wf.sane.run p hp
  rw [wait, myproc]
  simp only [wp_bind, wp_get, hp, wp_pure]
  cases hf : (List.range nProc).find?
      (fun i => (k.proc i).parent = some p ∧ (k.proc i).state = .zombie) with
  | none => exact (wp_pure _).mpr ⟨h, hp, id, .refl k⟩
  | some i =>
    have hi : i < nProc := List.mem_range.mp (List.mem_of_find?_eq_some hf)
    have hz : (k.proc i).state = .zombie := by
      have := List.find?_some hf
      simp only [decide_eq_true_eq] at this
      exact this.2
    have hpi : p ≠ i := by
      rintro rfl
      rw [hst] at hz
      cases hz
    have hcur : k.cur ≠ some i := fun hc => hpi (Option.some.inj (hp.symm.trans hc))
    have hks : (k.proc i).kstack ≠ nullFrame := fun e => by
      have := (h.ends.kstacks i hi).mpr e
      rw [hz] at this
      cases this
    have h₁ := h.wf.clearStack hi hks
    have hfreed := h₁.freed
    have hz₁ : ((k.setStack i nullFrame).proc i).state = .zombie := (proc_setStack i).1.trans hz
    have hdet := hfreed.detach (i := i) hi hz₁ rfl
    rw [show (((k.setStack i nullFrame).freed (k.proc i).kstack).proc i).pgdir = (k.proc i).pgdir
      from (proc_setStack i).2.1] at hdet
    have hq₁ : Quiet noPage (k.setStack i nullFrame) _ { leaving lost with gone := some i } :=
      ((still_freed h₁.acc).quiet_same rfl rfl).mono (fun _ _ hx => hx) (fun _ hd => hd)
        (fun _ ha => ha) (by rintro _ ⟨⟩)
    dsimp only
    rw [wp_bind, wp_kfree h₁.held_valid h.wf.sane.unlocked, wp_bind, wp_modify, wp_bind]
    refine wp_mono (freevm_spec (H := { leaving lost with gone := some i }) hdet)
      (fun _ k₂ hpost => ?_) (fun _ _ he => he)
    obtain ⟨h₂, hq₂⟩ := hpost
    rw [wp_bind, wp_modify, wp_pure]
    have hq := hq₁.trans hq₂
    refine ⟨h.reap hi hz hcur hq.calm hq.mild h₂, hq.calm.cur.trans hp, fun ht pg hpg hl => ?_,
      sameSpaces_reap hz hq.calm hq.mild⟩
    have hl₁ := hq.loose (X := noPage) ?_ pg hpg id (onlyTable_reap.loose rfl rfl rfl hl)
    · exact ht pg hpg (onlyTable_setStack.loose rfl rfl rfl hl₁)
    · refine ⟨.proc p, hlt, ?_, fun e => hpi (Option.some.inj e).symm, ?_⟩
      · rw [(proc_setStack p).1, hst]
        exact hasVm_running
      · exact (proc_setStack p).2.1.trans hcr3.symm

/-! ### Pages that come and go -/

/-- An operation that no process sees. -/
theorem Ends.tame (h : Ends k) (ht : Tame noPage k k' (leaving lost)) : Ends k' where
  tails i hi hs pg hlo hpg := by
    rw [ht.calm.state] at hs
    rw [ht.calm.sz] at hlo
    rw [ht.calm.pgdir, ht.page _ pg ⟨.proc i, hi, hs, by rintro ⟨⟩, rfl⟩ hpg id]
    exact h.tails i hi hs pg hlo hpg
  kstacks i hi := by
    rw [ht.calm.state, ht.calm.kstack]
    exact h.kstacks i hi

theorem Ends.pipes {ps : List Nat} (h : Ends k) : Ends { k with pipes := ps } :=
  ⟨h.tails, h.kstacks⟩

theorem Tame.tight (h : Tame noPage k k' H) (hcr3 : k.Live H k.cr3) (ht : k.Tight) : k'.Tight :=
  fun pg hpg hl => ht pg hpg (h.loose hcr3 pg hpg id hl)

theorem Wf.addPipe (h : Wf im k (H.hold (.frame f))) : Wf im { k with pipes := f :: k.pipes } H :=
  ⟨h.acc.addPipe, { h.sane.held (G := H) rfl rfl with }⟩

theorem Wf.erasePipe (h : Wf im k H) (hf : f ∈ k.pipes) :
    Wf im { k with pipes := k.pipes.erase f } (H.hold (.frame f)) :=
  ⟨h.acc.erasePipe hf, { h.sane.held (G := H.hold (.frame f)) rfl rfl with }⟩

theorem pipealloc_spec (hs : Supply im (Running p) E) (h : Good im k lost) (hp : k.cur = some p) :
    wp (pipealloc im) k
      (fun _ k' => Good im k' lost ∧ k'.cur = some p ∧ (k.Tight → k'.Tight) ∧ SameSpaces k k') E := by
  rw [pipealloc, wp_bind]
  refine wp_mono (hs.alloc (n := 0) h.wf hp) (fun r k₁ hpost => ?_)
    (fun _ _ he => he)
  obtain ⟨f, hr, h₁, hq₁, hp₁⟩ := hpost
  subst hr
  rw [wp_bind, wp_modify, wp_pure]
  exact ⟨⟨h₁.addPipe, (h.ends.tame hq₁.tame).pipes⟩, hp₁, hq₁.tame.tight (h.wf.sane.live_cr3 hp),
    hq₁.tame.sameSpaces h.wf.sane⟩

theorem pipeclose_spec (h : Good im k lost) (hp : k.cur = some p) (hf : f ∈ k.pipes) :
    wp (pipeclose im f) k
      (fun _ k' => Good im k' lost ∧ k'.cur = some p ∧ (k.Tight → k'.Tight) ∧ SameSpaces k k') E := by
  have h₁ := h.wf.erasePipe hf
  have hq := (still_freed h₁.acc).quiet_same rfl rfl
  rw [pipeclose, wp_bind, wp_kfree h₁.held_valid h.wf.sane.unlocked, wp_modify]
  exact ⟨⟨h₁.freed, h.ends.pipes.tame hq.tame⟩, hp,
    hq.tame.tight (h.wf.sane.live_cr3 hp), hq.tame.sameSpaces (h₁.sane.held rfl rfl)⟩

theorem swapOutOnePage_good (h : Good im k lost) (hp : k.cur = some p) :
    wp (swapOutOnePage im) k
      (fun _ k' => Good im k' lost ∧ k'.cur = some p ∧ (k.Tight → k'.Tight) ∧ SameSpaces k k')
      (fun e _ => Exhausted e) := by
  refine wp_mono (swapOutOnePage_spec h.wf hp) (fun _ _ hpost => ?_)
    (fun _ _ he => he.imp And.left And.left)
  obtain ⟨_, _, _, _, he⟩ := hpost
  exact ⟨⟨he.wf, h.ends.tame he.quiet.tame⟩, he.quiet.calm.cur.trans hp,
    he.quiet.tame.tight (h.wf.sane.live_cr3 hp), he.quiet.tame.sameSpaces h.wf.sane⟩

/-! ### Signals between processes -/

/-- A process is killed, or is woken up, or both. -/
def Signalled (pr pr' : Proc) : Prop :=
  ∃ b s, pr' = { pr with killed := b, state := s } ∧ (s = pr.state ∨ s = .runnable ∧ pr.state = .sleeping)

theorem Signalled.refl (pr : Proc) : Signalled pr pr := ⟨pr.killed, pr.state, rfl, .inl rfl⟩

theorem Signalled.hasVm (h : Signalled pr pr') : HasVm pr'.state ↔ HasVm pr.state := by
  obtain ⟨b, s, rfl, rfl | ⟨rfl, hs⟩⟩ := h
  · exact Iff.rfl
  · exact iff_of_true hasVm_runnable (hs ▸ hasVm_sleeping)

theorem Signalled.evictable (h : Signalled pr pr') : Evictable pr'.state ↔ Evictable pr.state := by
  obtain ⟨b, s, rfl, rfl | ⟨rfl, hs⟩⟩ := h
  · exact Iff.rfl
  · exact iff_of_true (.inl rfl) (hs ▸ .inr (.inr rfl))

theorem Signalled.unused (h : Signalled pr pr') : pr'.state = .unused ↔ pr.state = .unused := by
  obtain ⟨b, s, rfl, rfl | ⟨rfl, hs⟩⟩ := h
  · exact Iff.rfl
  · exact iff_of_false (by simp) (by simp [hs])

theorem Signalled.running (h : Signalled pr pr') (hr : pr.state = .running) : pr'.state = .running := by
  obtain ⟨b, s, rfl, rfl | ⟨rfl, hs⟩⟩ := h
  · exact hr
  · rw [hr] at hs
    cases hs

/-- Signals leave the memory as it is. -/
theorem Good.signalled (h : Good im k lost) (hproc : ∀ j, Signalled (k.proc j) (k'.proc j))
    (heq : k' = { k with proc := k'.proc }) :
    Good im k' lost ∧ k'.cur = k.cur ∧ (k.Tight → k'.Tight) ∧ SameSpaces k k' := by
  have ho : OnlyTable k k' := ⟨by rw [heq]⟩
  have hsame (j : Nat) : (k'.proc j).pgdir = (k.proc j).pgdir ∧ (k'.proc j).kstack = (k.proc j).kstack ∧
      (k'.proc j).sz = (k.proc j).sz := by
    obtain ⟨b, s, hj, -⟩ := hproc j
    rw [hj]
    exact ⟨rfl, rfl, rfl⟩
  have hcur : k'.cur = k.cur := by rw [heq]
  have hcr3 : k'.cr3 = k.cr3 := by rw [heq]
  refine ⟨h.table ho (fun j => (hproc j).hasVm) (fun j => (hproc j).unused) (fun j => (hsame j).1)
    (fun j => (hsame j).2.1) (fun j => (hsame j).2.2) (by rw [heq]) fun q hq => ?_, hcur, fun ht pg hpg hl => ?_,
    fun j _ => ho.space (hproc j).evictable (hsame j).2.2 (hsame j).1⟩
  · obtain ⟨hlt, hst, hq₃⟩ := h.wf.sane.run q (hcur ▸ hq)
    exact ⟨hlt, (hproc q).running hst, by rw [hcr3, hq₃, (hsame q).1]⟩
  · exact ht pg hpg (ho.loose hcr3 (by rw [heq]) (by rw [heq]) hl)

theorem wakeup_spec {chan : Nat → Bool} (h : Good im k lost) :
    wp (wakeup chan) k
      (fun _ k' => Good im k' lost ∧ k'.cur = k.cur ∧ (k.Tight → k'.Tight) ∧ SameSpaces k k') E := by
  rw [wakeup, wp_modify]
  refine h.signalled (fun j => ?_) rfl
  dsimp only
  split
  · rename_i hj
    exact ⟨(k.proc j).killed, .runnable, rfl, .inr ⟨rfl, hj.1⟩⟩
  · exact .refl _

theorem kill_spec {pid : Nat} (h : Good im k lost) :
    wp (kill pid) k
      (fun _ k' => Good im k' lost ∧ k'.cur = k.cur ∧ (k.Tight → k'.Tight) ∧ SameSpaces k k') E := by
  rw [kill, wp_bind, wp_get]
  cases (List.range nProc).find? (fun i => (k.proc i).pid = pid) with
  | none => exact (wp_pure _).mpr ⟨h, rfl, id, .refl k⟩
  | some i =>
    dsimp only
    rw [wp_bind, wp_modify, wp_pure]
    refine h.signalled (fun j => ?_) rfl
    by_cases hj : j = i
    · subst hj
      rw [setProc_self]
      refine ⟨true, _, rfl, ?_⟩
      by_cases hsl : (k.proc j).state = .sleeping
      · exact .inr ⟨if_pos hsl, hsl⟩
      · exact .inl (if_neg hsl)
    · rw [setProc_of_ne hj]
      exact .refl _

/-! ### Page faults -/

theorem Good.kill (h : Good im k lost) : Good im (k.kill p) lost ∧ (k.kill p).cur = k.cur ∧
    (k.Tight → (k.kill p).Tight) ∧ SameSpaces k (k.kill p) := by
  refine h.signalled (fun j => ?_) rfl
  by_cases hj : j = p
  · subst hj
    rw [Kernel.kill, setProc_self]
    exact ⟨true, _, rfl, .inl rfl⟩
  · rw [Kernel.kill, setProc_of_ne hj]
    exact .refl _

/-- What a run leaves behind: `lost` are the slots that `swap_in` did not free, one for each page-in. -/
structure Sound (im : Image) (k : Kernel) (lost : List Nat) : Prop where
  good : Good im k lost
  fetches : fetches k.trail = lost.length
  nodup : lost.Nodup

theorem Sound.longer (h : Sound im k lost) (hg : Good im k' lost) (hl : Longer NoFetch k k') : Sound im k' lost :=
  ⟨hg, hl.fetches.trans h.fetches, h.nodup⟩

theorem Sound.after (h : Sound im k lost) (ha : After im noPage k k' (leaving lost) ns) :
    Sound im k' (ns ++ lost) where
  good := ⟨ha.wf, h.good.ends.tame ha.tame⟩
  fetches := by rw [ha.fetches, h.fetches, List.length_append]
  nodup := ha.nodup h.nodup

/-- A page fault loses the slot of the page that it fetches, and no process sees it. -/
theorem pgflt_good (hs : Supply im (Running p) E) (h : Sound im k lost) (hp : k.cur = some p)
    (h32 : va < 2 ^ 32) :
    wp (pgflt im va) k (fun _ k' => ∃ lost', Sound im k' lost' ∧ k'.cur = some p ∧ (k.Tight → k'.Tight) ∧
      SameSpaces k k') E := by
  refine wp_mono (pgflt_spec hs h.good.wf hp hp h32) (fun _ k' hk' => ?_) (fun _ _ he => he)
  rcases hk' with ⟨e, -, -, -, -, hf⟩ | ⟨-, rfl⟩
  · exact ⟨_, h.after hf.after, hf.tame.calm.cur.trans hp, hf.tame.tight (h.good.wf.sane.live_cr3 hp),
      hf.tame.sameSpaces h.good.wf.sane⟩
  · obtain ⟨hg, hcur, ht, hsame⟩ := h.good.kill (p := p)
    exact ⟨_, h.longer hg ⟨[], rfl, by simp⟩, hcur.trans hp, ht, hsame⟩

/-- A page fault of user code that kills the process, and any other. -/
theorem trapPgflt_spec {user : Bool} (hs : Supply im (Running p) E) (h : Sound im k lost)
    (hp : k.cur = some p) (h32 : va < 2 ^ 32) :
    wp (trapPgflt im va user) k (fun r k' => ∃ lost', Sound im k' lost' ∧ (k.Tight → k'.Tight) ∧
      (r = true ∧ k'.cur = some p ∧ SameSpaces k k' ∨ r = false ∧ k'.cur = none ∧ Leaves k k' p))
      (fun e k' => E e k' ∨ e = .initExiting) := by
  rw [trapPgflt, wp_bind]
  refine wp_mono (pgflt_good hs h hp h32) (fun _ k₁ hpost => ?_) (fun _ _ he => .inl he)
  obtain ⟨lost', h₁, hp₁, ht, hsame⟩ := hpost
  rw [myproc]
  simp only [wp_bind, wp_get, hp₁, wp_pure]
  by_cases hk : (k₁.proc p).killed = true ∧ user = true
  · rw [if_pos hk, wp_bind]
    refine wp_mono (wp_and (exit_spec h₁.good hp₁) (exit_logs k₁)) (fun _ k₂ hpost => ?_) (fun _ _ he => .inr he.1)
    obtain ⟨⟨h₂, hcur, ht₂, hl⟩, hlong⟩ := hpost
    rw [wp_pure]
    exact ⟨lost', h₁.longer h₂ hlong.noFetch, fun _ => ht₂, .inr ⟨rfl, hcur,
      fun j hj hjp => (hl.others j hj hjp).trans (hsame j hj), hl.self⟩⟩
  · rw [if_neg hk, wp_pure]
    exact ⟨lost', h₁, ht, .inl ⟨rfl, hp₁, hsame⟩⟩

end Xv6.Swap
