import AdvancedXv6.Jobs.Wf

/-! Suspending and resuming: which slots of the process table become runnable, and what the
scheduler then finds in them. -/

namespace Xv6.Jobs
open Function

variable {k t : Kernel} {e : Event} {i j c np : Slot} {p q : Proc} {custom : Option (Int × Int)}
  {b : Bool}

/-- There is no process to run: none at all, one that is being made, or one that has exited. -/
def ProcState.NotToRun (s : ProcState) : Prop := s = .unused ∨ s = .embryo ∨ s = .zombie

namespace Kernel

/-- Some process is in the middle of making `i` with `fork`. -/
def Making (k : Kernel) (i : Slot) : Prop :=
  ∃ c custom b, (k.proc c).activity = .fork i custom b

/-- Processes are suspended only when every slot but those of the first process and of the shell is
free for good or has a process to run. -/
def SuspendsRunning (k : Kernel) (e : Event) (_ : Kernel) : Prop :=
  e = .afterYield → k.yieldOnTimer = 1 →
    ∀ i, (k.proc i).pid ≠ 0 → (k.proc i).pid ≠ 1 → (k.proc i).pid ≠ 2 → ¬(k.proc i).state.NotToRun

/-- What is in the table when only processes that run are suspended. -/
structure Ordered (k : Kernel) : Prop where
  context : ∀ i, ¬(k.proc i).state.NotToRun → k.cur ≠ some i →
    (k.proc i).context ≠ .none ∧ (k.proc i).context ≠ .exit
  making : ∀ c i custom b, (k.proc c).activity = .fork i custom b → (k.proc i).state = .embryo ∧
    (b = true → (k.proc i).context = .forkret)

end Kernel

theorem notToRun_iff {s : ProcState} : ¬s.NotToRun ↔
    s = .sleeping ∨ s = .runnable ∨ s = .running ∨ s = .suspended := by
  cases s <;> simp [ProcState.NotToRun]

theorem context_step (hk : k.Wf) (ho : k.Ordered) (h : k.step e = some t)
    (hs : k.SuspendsRunning e t) (hi : ¬(t.proc i).state.NotToRun) (hc : t.cur ≠ some i) :
    (t.proc i).context ≠ .none ∧ (t.proc i).context ≠ .exit := by
  have hrun : (t.proc i).state ≠ .running := fun h' => hc ((running_step hk h i).mp h')
  have old (hx : (t.proc i).context = (k.proc i).context) (hp : (k.proc i).state ≠ .running)
      (hp' : ¬(k.proc i).state.NotToRun) :
      (t.proc i).context ≠ .none ∧ (t.proc i).context ≠ .exit := by
    rw [hx]
    exact ho.context i hp' fun h => hp ((hk.running i).mpr h)
  have new (x : Context) (hx : (t.proc i).context = x) (hx' : x ≠ .none ∧ x ≠ .exit) :
      (t.proc i).context ≠ .none ∧ (t.proc i).context ≠ .exit := hx ▸ hx'
  cases step_move hk h i with
  | roused h =>
    rcases h.state with hs | ⟨hs | hs, -⟩
    · exact old h.context (hs ▸ hrun) (hs ▸ hi)
    · exact old h.context (by rw [hs]; simp) (by simp [hs, ProcState.NotToRun])
    · exact old h.context (by rw [hs]; simp) (by simp [hs, ProcState.NotToRun])
  | allocated _ _ _ hq | failed _ _ _ _ _ hq | reaped _ _ _ hq =>
    rw [hq] at hi
    simp [ProcState.NotToRun] at hi
  | copied _ _ _ _ _ _ hx => exact new _ hx ⟨by simp, by simp⟩
  | finished c custom _ _ ha hq =>
    refine new .forkret ?_ ⟨by simp, by simp⟩
    rw [hq, initChild_context]
    exact (ho.making c i custom true ha).2 rfl
  | started _ _ hp hq =>
    exact old (by rw [hq]) (by rw [hp]; simp) (by simp [hp, ProcState.NotToRun])
  | slept _ _ _ _ hx => exact new _ hx ⟨by simp, by simp⟩
  | exited _ _ _ hst =>
    rw [hst] at hi
    simp [ProcState.NotToRun] at hi
  | waited _ _ _ hp hq =>
    exact old (by rw [hq]; rfl) (by rw [hp]; simp) (by simp [hp, ProcState.NotToRun])
  | ran _ _ _ _ hp hq =>
    rcases hq with hq | hq
    · exact new .yield (by rw [hq]) ⟨by simp, by simp⟩
    · rw [hq] at hrun
      exact absurd hp hrun
  | dispatched _ _ _ _ _ hst => exact absurd hst hrun
  | suspended he hy hp hq =>
    rcases hq with ⟨hkc, hq⟩ | ⟨-, hq⟩
    · exact old (by rw [hq]) (fun h => hkc ((hk.running i).mp h)) (hs he hy i hp.1 hp.2.1 hp.2.2)
    · exact new .yield2 (by rw [hq]) ⟨by simp, by simp⟩
  | gaveUp _ hkc hq =>
    rcases hq with hq | hq
    · exact new .yield2 (by rw [hq]) ⟨by simp, by simp⟩
    · rw [hq] at hrun
      exact absurd ((hk.running i).mpr hkc) hrun

theorem making_step (hk : k.Wf) (ho : k.Ordered) (h : k.step e = some t) (hs : k.SuspendsRunning e t)
    (he : ¬e.Forks) (ha : (t.proc c).activity = .fork i custom b) :
    (t.proc i).state = .embryo ∧ (b = true → (t.proc i).context = .forkret) := by
  obtain ⟨hka, hend⟩ := step_activity hk he h ha
  obtain ⟨hp, hx⟩ := ho.making c i custom b hka
  have hother {c' : Slot} {custom' b'} (hi : (k.proc c').activity = .fork i custom' b')
      (hc : k.cur = some c') (he : e = .forkFail ∨ e = .forkFinish) : False :=
    hend ⟨(hk.fork c i custom b hka).unique c' custom' b' hi ▸ hc, he⟩
  have hnot {s : ProcState} (hs : (k.proc i).state = s) (hne : s ≠ .embryo) : False :=
    hne (hs.symm.trans hp)
  cases step_move hk h i with
  | roused h =>
    rcases h.state with hs | ⟨hs | hs, -⟩
    · rw [hs, h.context]
      exact ⟨hp, hx⟩
    · exact (hnot hs (by simp)).elim
    · exact (hnot hs (by simp)).elim
  | allocated _ _ hp' _ | started _ _ hp' _ | reaped _ _ hp' _ | waited _ _ _ hp' _
  | ran _ _ _ _ hp' _ | dispatched _ _ _ hp' => exact (hnot hp' (by simp)).elim
  | failed c' _ he' hc' ha' => exact (hother ha' hc' (.inl he')).elim
  | copied _ _ he' => exact absurd (he' ▸ trivial) he
  | finished c' _ he' hc' ha' => exact (hother ha' hc' (.inr he')).elim
  | slept _ hc | exited _ hc | gaveUp _ hc => exact (hnot ((hk.running i).mpr hc) (by simp)).elim
  | suspended he' hy hpid _ =>
    exact absurd (.inr (.inl hp)) (hs he' hy i hpid.1 hpid.2.1 hpid.2.2)

theorem Kernel.Ordered.step (hk : k.Wf) (ho : k.Ordered) (h : k.step e = some t)
    (hs : k.SuspendsRunning e t) : t.Ordered where
  context i hi hc := context_step hk ho h hs hi hc
  making c i custom b ha := by
    by_cases he : e.Forks
    · obtain ⟨-, -, hperf⟩ := Kernel.step_some h
      cases e with
      | fork custom₀ =>
        obtain ⟨c₀, hc, -, -, rfl⟩ := Kernel.call_some hperf
        rw [Kernel.allocproc] at ha ⊢
        cases hf : k.find fun q => q.state = .unused with
        | none =>
          rw [hf] at ha
          exact ho.making c i custom b ha
        | some np₀ =>
          have hnp : (k.proc np₀).state = .unused := by simpa using Kernel.find_some hf
          rw [hf] at ha
          dsimp only at ha ⊢
          by_cases hcc : c = c₀
          · subst hcc
            rw [Kernel.modify_proc] at ha
            cases ha
            refine ⟨?_, by simp⟩
            rw [Kernel.modify_apply, Kernel.modify_proc]
            split <;> rfl
          · have hka : (k.proc c).activity = .fork i custom b := by
              rw [Kernel.modify_proc_of_ne hcc, Kernel.modify_apply] at ha
              split at ha <;> exact ha
            have hne : i ≠ np₀ := by
              rintro rfl
              exact (hk.fork c i custom b hka).used hnp
            rw [Kernel.modify_apply, Kernel.modify_proc_of_ne hne]
            split <;> exact ho.making c i custom b hka
      | forkCopy =>
        obtain ⟨c₀, np₀, custom₀, hc, ha₀, rfl⟩ := Kernel.goOnFork_some hperf
        have hf₀ := hk.fork c₀ np₀ custom₀ false ha₀
        have hemb := (ho.making c₀ np₀ custom₀ false ha₀).1
        have hflags (p : Proc) : (Kernel.copyFlags custom₀ p).state = p.state ∧
            (Kernel.copyFlags custom₀ p).context = p.context ∧
            (Kernel.copyFlags custom₀ p).activity = p.activity := by
          cases custom₀ <;> exact ⟨rfl, rfl, rfl⟩
        rw [Kernel.forkCopy] at ha ⊢
        by_cases hcc : c = c₀
        · subst hcc
          rw [Kernel.modify_proc] at ha
          cases ha
          rw [Kernel.modify_proc_of_ne hf₀.ne.symm, Kernel.modify_proc, (hflags _).1, (hflags _).2.1]
          exact ⟨hemb, fun _ => rfl⟩
        · rw [Kernel.modify_proc_of_ne hcc, Kernel.modify_apply] at ha
          split at ha
          · rw [(hflags _).2.2] at ha
            cases ha
          · have hne : i ≠ np₀ := by
              rintro rfl
              exact hcc (hf₀.unique c custom b ha)
            rw [Kernel.modify_apply, Kernel.modify_proc_of_ne hne]
            split <;> exact ho.making c i custom b ha
      | _ => exact he.elim
    · exact making_step hk ho h hs he ha

end Xv6.Jobs
