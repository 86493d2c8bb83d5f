import AdvancedXv6.Jobs.Lives

/-! Processes that are created to start later: how long the scheduler passes them over, and whom
`scheduler_start` releases. -/

namespace Xv6.Jobs
open Function

variable {k t u : Kernel} {e : Event} {i c np : Slot} {p q : Proc} {custom : Option (Int × Int)}
  {b : Bool}

namespace Kernel

/-- A process that the scheduler passes over has not run yet and waits. -/
def BarredWait (k : Kernel) : Prop := ∀ i, (k.proc i).Barred →
  ((k.proc i).state = .sleeping ∨ (k.proc i).state = .runnable ∨ (k.proc i).state = .suspended) ∧
    ¬k.Making i

/-- `custom_fork` has created the process `np`. -/
def Created (k t : Kernel) (np : Slot) (flag e : Int) : Prop :=
  k.step .forkFinish = some t ∧
    ∃ c, k.cur = some c ∧ (k.proc c).activity = .fork np (some (flag, e)) true

end Kernel

/-- What a step does to a process that the scheduler passes over: it stays so until the next
`scheduler_start`. -/
theorem Move.barred (hk : k.Wf) (h : Move k e i (k.proc i) q) (hb : (k.proc i).Barred)
    (hw : (k.proc i).state = .sleeping ∨ (k.proc i).state = .runnable ∨
      (k.proc i).state = .suspended) (hm : ¬k.Making i) :
    (q.Barred ∧ (q.state = .sleeping ∨ q.state = .runnable ∨ q.state = .suspended)) ∨
      e = .schedulerStart ∧ (k.proc i).state = .sleeping ∧ ¬q.Barred := by
  have hnot {s : ProcState} (hs : (k.proc i).state = s) (hne : s ≠ .sleeping ∧ s ≠ .runnable ∧
      s ≠ .suspended) : False := by
    rcases hw with h | h | h
    · exact hne.1 (hs.symm.trans h)
    · exact hne.2.1 (hs.symm.trans h)
    · exact hne.2.2 (hs.symm.trans h)
  have hcur (hc : k.cur = some i) : False :=
    hnot ((hk.running i).mpr hc) ⟨by simp, by simp, by simp⟩
  cases h with
  | roused h =>
    refine .inl ⟨⟨h.enabled.trans hb.1, h.flag.trans hb.2⟩, ?_⟩
    rcases h.state with hs | ⟨-, hs⟩
    · rwa [hs]
    · exact .inr (.inl hs)
  | allocated _ _ hp _ => exact (hnot hp ⟨by simp, by simp, by simp⟩).elim
  | failed c custom _ _ ha _ | copied c custom _ _ ha _ | finished c custom _ _ ha _ =>
    exact absurd ⟨c, custom, _, ha⟩ hm
  | started he _ hs hq =>
    refine .inr ⟨he, hs, fun h => ?_⟩
    rw [hq] at h
    exact absurd h.1 (show (0 : Int) ≠ 1 by decide)
  | slept _ hc | exited _ hc | ran _ _ _ hc | gaveUp _ hc => exact (hcur hc).elim
  | reaped _ _ hp _ => exact (hnot hp ⟨by simp, by simp, by simp⟩).elim
  | waited _ _ _ hp hq =>
    refine .inl ?_
    rw [hq]
    exact ⟨hb, hw⟩
  | dispatched _ _ _ _ hno => exact absurd hb hno
  | suspended _ _ _ hq =>
    rcases hq with ⟨-, hq⟩ | ⟨hc, -⟩
    · refine .inl ?_
      rw [hq]
      exact ⟨hb, .inr (.inr rfl)⟩
    · exact (hcur hc).elim

/-- A process becomes barred at the end of its `custom_fork` only. -/
theorem Move.unbarred (h : Move k e i p q) (hb : ¬p.Barred) (hq : q.Barred) :
    ∃ c flag n, e = .forkFinish ∧ k.cur = some c ∧
      (k.proc c).activity = .fork i (some (flag, n)) true ∧ q.state = .sleeping := by
  have old (hf : q.startLaterFlag = p.startLaterFlag) (he : q.schedulingEnabled = p.schedulingEnabled) :
      False := hb ⟨he ▸ hq.1, hf ▸ hq.2⟩
  cases h with
  | roused h => exact (old h.flag h.enabled).elim
  | allocated _ _ _ h | failed _ _ _ _ _ h | reaped _ _ _ h => exact (old (by rw [h]) (by rw [h])).elim
  | copied _ _ _ _ _ _ _ _ _ _ _ _ _ _ h => exact absurd (h hq) hb
  | finished c custom he hc ha h =>
    cases custom with
    | none =>
      rw [h] at hq
      exact absurd hq hb
    | some x =>
      refine ⟨c, x.1, x.2, he, hc, ha, ?_⟩
      rw [h] at hq ⊢
      have hflag : x.1 = 1 := hq.2
      show (if x.1 ≠ 0 then ProcState.sleeping else .runnable) = .sleeping
      rw [if_pos (by rw [hflag]; decide)]
  | started _ _ _ h =>
    rw [h] at hq
    exact absurd hq.1 (show (0 : Int) ≠ 1 by decide)
  | slept _ _ h | exited _ _ h => exact (old h.flag h.enabled).elim
  | waited _ _ _ _ h => exact (old (by rw [h]; rfl) (by rw [h]; rfl)).elim
  | ran _ _ _ _ _ h =>
    rcases h with h | h <;> exact (old (by rw [h]) (by rw [h])).elim
  | dispatched _ _ _ _ _ _ _ _ _ _ _ hf he => exact (old hf he).elim
  | suspended _ _ _ h => rcases h with ⟨-, h⟩ | ⟨-, h⟩ <;> exact (old (by rw [h]) (by rw [h])).elim
  | gaveUp _ _ h => rcases h with h | h <;> exact (old (by rw [h]) (by rw [h])).elim

theorem Kernel.BarredWait.step (hk : k.Wf) (hw : k.BarredWait) (h : k.step e = some t) :
    t.BarredWait := by
  intro i hb
  have hm := step_move hk h i
  by_cases hkb : (k.proc i).Barred
  · obtain ⟨hs, hno⟩ := hw i hkb
    rcases hm.barred hk hkb hs hno with ⟨-, hs'⟩ | ⟨-, -, hb'⟩
    · refine ⟨hs', fun hmk => ?_⟩
      rcases making_back hk h hmk with ⟨hmk, -⟩ | ⟨-, hun⟩
      · exact hno hmk
      · rw [hun] at hs
        simp at hs
    · exact absurd hb hb'
  · obtain ⟨c, flag, n, he, hc, ha, hs⟩ := hm.unbarred hkb hb
    refine ⟨.inl hs, fun hmk => ?_⟩
    rcases making_back hk h hmk with ⟨-, hno⟩ | ⟨⟨custom, he'⟩, -⟩
    · exact hno ⟨c, _, true, hc, ha, .inr he⟩
    · cases he.symm.trans he'

theorem Kernel.Reachable.barredWait (h : k.Reachable) (hp : k.panicked = false) : k.BarredWait :=
  (Run.Reaches.invariant (I := fun k => k.panicked = false → k.Wf ∧ k.BarredWait) h
    (fun _ _ _ hI hs hp =>
      have h := hI (Kernel.step_some hs).1
      ⟨h.1.step hs hp, h.2.step h.1 hs⟩)
    (fun _ => ⟨wf_boot, fun i hb => by
      simp only [Kernel.boot] at hb
      split at hb <;> exact absurd hb.1 (show (0 : Int) ≠ 1 by decide)⟩) hp).2

theorem selectable_prioritise : k.prioritise.Selectable i ↔ k.Selectable i := by
  obtain ⟨n, hn⟩ := Kernel.prioritise_proc (k := k) (i := i)
  rw [Kernel.Selectable, hn]
  exact Iff.rfl

/-- The scheduler selects the only process that it can select. -/
theorem highest_of_unique (hi : k.Selectable i) (h : ∀ j, k.Selectable j → j = i) :
    k.highest = some i := by
  obtain ⟨j, hj, -⟩ := best_highest.highest i (List.mem_finRange i) hi
  rw [hj, h j (best_highest.selectable j hj)]

theorem created_barred {n : Int} (hk : k.Wf) (h : k.Created t np 1 n) : (t.proc np).Barred := by
  obtain ⟨hstep, c, hc, ha⟩ := h
  obtain ⟨-, -, hperf⟩ := Kernel.step_some hstep
  obtain ⟨c', np', custom, hc', ha', rfl⟩ := Kernel.goOnFork_some hperf
  obtain rfl := Option.some.inj (hc.symm.trans hc')
  cases ha.symm.trans ha'
  rw [Kernel.forkFinish, Kernel.modify_proc_of_ne (hk.fork c np _ _ ha).ne.symm, Kernel.modify_proc]
  exact ⟨rfl, rfl⟩

/-- Until `scheduler_start` is called, the scheduler passes over what is barred. -/
theorem barred_run {es : List Event} (hk : k.Reachable) (hb : k.panicked = false → (k.proc i).Barred)
    (hes : Event.schedulerStart ∉ es) : Run.Always Kernel.step
      (fun u e _ => e = .scheduler → u.prioritise.highest ≠ some i) k es := by
  refine Run.Always.of_invariant
    (I := fun u => u.Reachable ∧ (u.panicked = false → (u.proc i).Barred))
    (D := fun _ e _ => e ≠ .schedulerStart) (fun u e v hu he hv => ?_) ⟨hk, hb⟩
    (.of_mem fun e he _ _ h => hes (h ▸ he))
  have hp := (Kernel.step_some hv).1
  have hwf := hu.1.wf hp
  have hbar := hu.2 hp
  obtain ⟨hs, hno⟩ := hu.1.barredWait hp i hbar
  refine ⟨⟨hu.1.next hv, fun _ => ?_⟩, fun _ hh => ?_⟩
  · rcases (step_move hwf hv i).barred hwf hbar hs hno with ⟨h, -⟩ | ⟨h, -⟩
    · exact h
    · exact absurd h he
  · exact (selectable_prioritise.mp (best_highest.selectable i hh)).2 hbar

/-- The first process creates a process to start later, kills it and sleeps: with a flag other than 1
the scheduler then selects the new process. -/
theorem selected_of_ne_one (flag n : Int) (h0 : flag ≠ 0) (h1 : flag ≠ 1) :
    ∃ k t u, Run.exec Kernel.step Kernel.boot [.scheduler, .fork (some (flag, n)), .forkCopy] = some k ∧
      k.Created t ⟨1, by decide⟩ flag n ∧
      Run.exec Kernel.step t [.kill 2, .sleep (.other 0)] = some u ∧ (∃ v, u.step .scheduler = some v) ∧
      u.prioritise.highest = some ⟨1, by decide⟩ := by
  refine ⟨_, _, _, rfl, ⟨rfl, ⟨0, by decide⟩, rfl, rfl⟩, rfl, ⟨_, rfl⟩, ?_⟩
  refine highest_of_unique (selectable_prioritise.mpr ⟨?_, fun hb => h1 hb.2⟩) fun j hj => ?_
  · show (if (if flag ≠ 0 then ProcState.sleeping else .runnable) = .sleeping then
      ProcState.runnable else if flag ≠ 0 then .sleeping else .runnable) = .runnable
    rw [if_pos h0]
    rfl
  · have hj := (selectable_prioritise.mp hj).1
    obtain ⟨_ | _ | j, hlt⟩ := j
    · cases hj
    · rfl
    · cases hj

/-- A process that `custom_fork` creates to start later waits for `scheduler_start` if its flag is 1,
the value for which the scheduler looks, and only then. -/
theorem startLater_waits (flag n : Int) (h : flag ≠ 0) :
    (∀ (k t : Kernel) np es, k.Reachable → k.Created t np flag n → Event.schedulerStart ∉ es →
      Run.Always Kernel.step (fun u e _ => e = .scheduler → u.prioritise.highest ≠ some np) t es) ↔
      flag = 1 := by
  constructor
  · intro hall
    by_contra h1
    obtain ⟨k, t, u, hk, ht, hu, ⟨v, hv⟩, hh⟩ := selected_of_ne_one flag n h h1
    have := hall k t _ ([.kill 2, .sleep (.other 0)] ++ [.scheduler]) ⟨_, hk⟩ ht (by simp)
    exact ((Run.always_append.mp this).2 u hu v hv).1 rfl hh
  · rintro rfl k t np es hk ht hes
    refine barred_run (hk.next ht.1) (fun _ => ?_) hes
    exact created_barred (hk.wf (Kernel.step_some ht.1).1) ht

/-- With the flag 1 it is not selected after a `kill`. -/
theorem startLater_waits_killed : ∃ k t : Kernel,
    Run.exec Kernel.step Kernel.boot [.scheduler, .fork (some (1, 5)), .forkCopy] = some k ∧
    k.Created t ⟨1, by decide⟩ 1 5 ∧ Run.Always Kernel.step
      (fun u e _ => e = .scheduler → u.prioritise.highest ≠ some ⟨1, by decide⟩) t
      [.kill 2, .sleep (.other 0), .scheduler] := by
  obtain ⟨k, t, hk, ht⟩ : ∃ k t : Kernel,
      Run.exec Kernel.step Kernel.boot [.scheduler, .fork (some (1, 5)), .forkCopy] = some k ∧
      k.Created t ⟨1, by decide⟩ 1 5 := ⟨_, _, rfl, rfl, ⟨0, by decide⟩, rfl, rfl⟩
  exact ⟨k, t, hk, ht, (startLater_waits 1 5 (by decide)).mpr rfl k t _ _ ⟨_, hk⟩ ht (by simp)⟩

/-- With the flag 2 it is selected after a `kill`. -/
theorem startLater_two_selected : ∃ (k t u : Kernel) (np : Slot), k.Reachable ∧ k.Created t np 2 5 ∧
    Run.exec Kernel.step t [.kill 2, .sleep (.other 0)] = some u ∧
    (∃ v, u.step .scheduler = some v) ∧ u.prioritise.highest = some np := by
  obtain ⟨k, t, u, hk, ht, hu, hv, hh⟩ := selected_of_ne_one 2 5 (by decide) (by decide)
  exact ⟨k, t, u, _, ⟨_, hk⟩, ht, hu, hv, hh⟩

/-! ### Releasing -/

/-- As long as slot `i` holds the process with number `n`, that process is not barred. -/
structure Freed (i : Slot) (n : Int) (u : Kernel) : Prop where
  next : n < u.nextpid
  free : (u.proc i).pid = n → ¬(u.proc i).Barred ∧ ¬u.Making i ∧ (u.proc i).state ≠ .unused

theorem Freed.step {n : Int} (hk : k.Wf) (h : k.step e = some t) (hn : 0 < n)
    (hf : Freed i n k) : Freed i n t := by
  obtain ⟨hl, hold⟩ := Lives.step (i := i) hk h hn ⟨hf.next, fun hp => (hf.free hp).2⟩
  refine ⟨hl.next, fun hq => ⟨fun hb => ?_, hl.made hq⟩⟩
  obtain ⟨hno, hmk, -⟩ := hf.free (hold hq)
  obtain ⟨c, flag, m, -, -, ha, -⟩ := (step_move hk h i).unbarred hno hb
  exact hmk ⟨c, _, true, ha⟩

/-- `scheduler_start` frees every process that exists for good exactly if all those that the
scheduler passes over are sleeping. -/
theorem schedulerStart_frees (k t : Kernel) (hk : k.Reachable)
    (h : k.step .schedulerStart = some t) :
    (∀ es u, Run.exec Kernel.step t es = some u → ∀ i, ¬(k.proc i).state.NotToRun → ¬k.Making i →
      (u.proc i).pid = (k.proc i).pid → ¬(u.proc i).Barred) ↔
      ∀ i, (k.proc i).Barred → (k.proc i).state = .sleeping := by
  have hp := (Kernel.step_some h).1
  have hproc (i : Slot) : t.proc i = Kernel.start (k.proc i) := by
    obtain ⟨-, -, hperf⟩ := Kernel.step_some h
    obtain ⟨c, -, -, -, rfl⟩ := Kernel.call_some hperf
    rfl
  constructor
  · intro hall i hb
    obtain ⟨hs, hmk⟩ := hk.barredWait hp i hb
    by_contra hns
    refine hall [] t rfl i ?_ hmk ?_ ?_
    · rw [notToRun_iff]
      rcases hs with hs | hs | hs <;> simp [hs]
    · rw [hproc, Kernel.start, if_neg fun h => hns h.2]
    · rw [hproc, Kernel.start, if_neg fun h => hns h.2]
      exact hb
  · intro hall es u hu i hi hmk hpid
    have hwf := hk.wf hp
    have hnum := hk.numbered hp
    have hused : (k.proc i).state ≠ .unused := fun h => hi (.inl h)
    have h₀ : Freed i (k.proc i).pid t := by
      refine ⟨(hnum.pid i).2.trans_le (step_nextpid hwf h), fun _ => ⟨fun hb => ?_, fun hmk' => ?_, ?_⟩⟩
      · rw [hproc, Kernel.start] at hb
        split at hb
        · exact absurd hb.1 (show (0 : Int) ≠ 1 by decide)
        · rename_i hns
          have hs := hall i hb
          exact hns ⟨by rw [hb.2]; decide, hs⟩
      · rcases making_back hwf h hmk' with ⟨h, -⟩ | ⟨-, hun⟩
        · exact hmk h
        · exact hused hun
      · rw [hproc, Kernel.start]
        split
        · simp
        · exact hused
    have hpos : 0 < (k.proc i).pid := by
      have := (hnum.pid i).1
      have := hnum.used i hused
      omega
    have hrun := Run.invariant (I := fun u => u.Reachable ∧ Freed i (k.proc i).pid u)
      (fun u e v hu' hv => ⟨hu'.1.next hv, hu'.2.step (hu'.1.wf (Kernel.step_some hv).1) hv hpos⟩)
      ⟨hk.next h, h₀⟩ hu
    exact (hrun.2.free hpid).1

/-- The first process creates a process with the flag 1. -/
def customFork : List Event := [.scheduler, .fork (some (1, 5)), .forkCopy, .forkFinish]

/-- The child sleeps when `scheduler_start` is called. -/
theorem schedulerStart_frees_sleeping : ∃ k t : Kernel,
    Run.exec Kernel.step Kernel.boot customFork = some k ∧ k.step .schedulerStart = some t ∧
    (k.proc ⟨1, by decide⟩).Barred ∧ ∀ es u, Run.exec Kernel.step t es = some u →
      (u.proc ⟨1, by decide⟩).pid = (k.proc ⟨1, by decide⟩).pid →
        ¬(u.proc ⟨1, by decide⟩).Barred := by
  refine ⟨_, _, rfl, rfl, by decide, fun es u hu hpid => ?_⟩
  refine (schedulerStart_frees _ _ ⟨customFork, rfl⟩ rfl).mpr (fun i hi => ?_) es u hu ⟨1, by decide⟩ ?_ ?_ hpid
  · obtain ⟨_ | _ | j, hlt⟩ := i
    · exact absurd hi.1 (show (0 : Int) ≠ 1 by decide)
    · rfl
    · exact absurd hi.1 (show (0 : Int) ≠ 1 by decide)
  · exact notToRun_iff.mpr (.inl rfl)
  · rintro ⟨⟨_ | _ | j, hlt⟩, custom, b, ha⟩ <;> cases ha

/-- A child that was killed before is passed over for ever. -/
theorem schedulerStart_strands : ∃ k t : Kernel,
    Run.exec Kernel.step Kernel.boot (customFork ++ [.kill 2]) = some k ∧
    k.step .schedulerStart = some t ∧ (k.proc ⟨1, by decide⟩).state = .runnable ∧
    (t.proc ⟨1, by decide⟩).pid = (k.proc ⟨1, by decide⟩).pid ∧ (t.proc ⟨1, by decide⟩).Barred :=
  ⟨_, _, rfl, rfl, by decide, by decide, by decide⟩

end Xv6.Jobs
