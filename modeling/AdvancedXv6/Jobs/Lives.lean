import AdvancedXv6.Jobs.Suspend

/-! How long a slot holds one and the same process. -/

namespace Xv6.Jobs
open Function

variable {k t : Kernel} {e : Event} {i c : Slot} {p q : Proc} {custom : Option (Int × Int)} {n : Int}

/-- Something is being made in a slot after the step only if it was before, or if it starts now. -/
theorem making_back (hk : k.Wf) (h : k.step e = some t) (hm : t.Making i) :
    k.Making i ∧ ¬(∃ c custom b, k.cur = some c ∧ (k.proc c).activity = .fork i custom b ∧
        (e = .forkFail ∨ e = .forkFinish)) ∨
      (∃ custom, e = .fork custom) ∧ (k.proc i).state = .unused := by
  obtain ⟨c, custom, b, ha⟩ := hm
  by_cases he : e.Forks
  · obtain ⟨-, -, hperf⟩ := Kernel.step_some h
    cases e with
    | fork custom₀ =>
      obtain ⟨c₀, hc, -, -, rfl⟩ := Kernel.call_some hperf
      have hends : ¬∃ c custom b, k.cur = some c ∧ (k.proc c).activity = .fork i custom b ∧
          (Event.fork custom₀ = .forkFail ∨ Event.fork custom₀ = .forkFinish) := by
        rintro ⟨_, _, _, -, -, he | he⟩ <;> cases he
      rw [Kernel.allocproc] at ha
      cases hf : k.find fun q => q.state = .unused with
      | none =>
        rw [hf] at ha
        exact .inl ⟨⟨c, custom, b, ha⟩, hends⟩
      | some np₀ =>
        have hnp : (k.proc np₀).state = .unused := by simpa using Kernel.find_some hf
        rw [hf] at ha
        dsimp only at ha
        by_cases hcc : c = c₀
        · subst hcc
          rw [Kernel.modify_proc] at ha
          cases ha
          exact .inr ⟨⟨_, rfl⟩, hnp⟩
        · rw [Kernel.modify_proc_of_ne hcc, Kernel.modify_apply] at ha
          refine .inl ⟨⟨c, custom, b, ?_⟩, hends⟩
          split at ha <;> exact ha
    | forkCopy =>
      obtain ⟨c₀, np₀, custom₀, hc, ha₀, rfl⟩ := Kernel.goOnFork_some hperf
      refine .inl ⟨?_, by rintro ⟨_, _, _, -, -, he | he⟩ <;> cases he⟩
      rw [Kernel.forkCopy] at ha
      by_cases hcc : c = c₀
      · subst hcc
        rw [Kernel.modify_proc] at ha
        cases ha
        exact ⟨c, custom, false, ha₀⟩
      · rw [Kernel.modify_proc_of_ne hcc, Kernel.modify_apply] at ha
        split at ha
        · have hflags (p : Proc) : (Kernel.copyFlags custom₀ p).activity = p.activity := by
            cases custom₀ <;> rfl
          rw [hflags] at ha
          cases ha
        · exact ⟨c, custom, b, ha⟩
    | _ => exact he.elim
  · obtain ⟨hka, hend⟩ := step_activity hk he h ha
    refine .inl ⟨⟨c, custom, b, hka⟩, ?_⟩
    rintro ⟨c', custom', b', hc, hka', he⟩
    exact hend ⟨(hk.fork c i custom b hka).unique c' custom' b' hka' ▸ hc, he⟩

/-- As long as slot `i` holds the process with number `n`, the process is there and complete. -/
structure Lives (i : Slot) (n : Int) (u : Kernel) : Prop where
  next : n < u.nextpid
  made : (u.proc i).pid = n → ¬u.Making i ∧ (u.proc i).state ≠ .unused

/-- Numbers are not used twice, so a slot that has lost a process does not get it back. -/
theorem Lives.step (hk : k.Wf) (h : k.step e = some t) (hn : 0 < n) (hl : Lives i n k) :
    Lives i n t ∧ ((t.proc i).pid = n → (k.proc i).pid = n) := by
  have hm := step_move hk h i
  have hnext := hl.next
  have hold (hq : (t.proc i).pid = n) : (k.proc i).pid = n := by
    rcases hm.pid hk with ⟨hpid, -⟩ | ⟨-, -, hpid⟩ | ⟨hpid, -⟩ <;> omega
  refine ⟨⟨hnext.trans_le (step_nextpid hk h), fun hq => ?_⟩, hold⟩
  obtain ⟨hmk, hs⟩ := hl.made (hold hq)
  refine ⟨fun hmk' => ?_, fun hs' => ?_⟩
  · rcases making_back hk h hmk' with ⟨h, -⟩ | ⟨-, hun⟩
    · exact hmk h
    · exact hs hun
  · rcases hm.unused hs hs' with ⟨c, custom, ha⟩ | hpid
    · exact hmk ⟨c, custom, false, ha⟩
    · exact absurd (hpid.1.symm.trans hq) (Int.ne_of_lt hn)

/-! ### Creation -/

/-- `fork` or `custom_fork` returns with the new process in the slot `np`. -/
def Kernel.Makes (k t : Kernel) (np : Slot) : Prop := k.step .forkFinish = some t ∧
  ∃ c custom, k.cur = some c ∧ (k.proc c).activity = .fork np custom true

theorem forkFinish_proc {np : Slot} (hk : k.Wf) (h : k.step .forkFinish = some t) (hc : k.cur = some c)
    (ha : (k.proc c).activity = .fork np custom true) :
    t.proc np = Kernel.initChild k.ticks custom (k.proc np) := by
  obtain ⟨-, -, hperf⟩ := Kernel.step_some h
  obtain ⟨c', np', custom', hc', ha', rfl⟩ := Kernel.goOnFork_some hperf
  obtain rfl := Option.some.inj (hc.symm.trans hc')
  cases ha.symm.trans ha'
  rw [Kernel.forkFinish, Kernel.modify_proc_of_ne (hk.fork c np _ _ ha).ne.symm, Kernel.modify_proc]

theorem Kernel.Makes.proc {np : Slot} (hk : k.Wf) (h : k.Makes t np) :
    ∃ custom, t.proc np = initChild k.ticks custom (k.proc np) := by
  obtain ⟨hstep, c, custom, hc, ha⟩ := h
  exact ⟨custom, forkFinish_proc hk hstep hc ha⟩

theorem fork_proc {np : Slot} (hk : k.Wf) (h : k.step (.fork custom) = some t)
    (hnp : k.find (fun q => q.state = .unused) = some np) :
    t.proc np = { k.proc np with state := .embryo, pid := k.nextpid } ∧ t.nextpid = k.nextpid + 1 := by
  obtain ⟨-, -, hperf⟩ := Kernel.step_some h
  obtain ⟨c, hc, -, -, rfl⟩ := Kernel.call_some hperf
  have hne : np ≠ c := by
    rintro rfl
    have hun : (k.proc np).state = .unused := by simpa using Kernel.find_some hnp
    rw [(hk.running np).mpr hc] at hun
    cases hun
  rw [Kernel.allocproc, hnp]
  dsimp only
  rw [Kernel.modify_proc_of_ne hne]
  exact ⟨Kernel.modify_proc, rfl⟩

theorem Kernel.Makes.lives {np : Slot} (hk : k.Reachable) (h : k.Makes t np) :
    0 < (t.proc np).pid ∧ Lives np (t.proc np).pid t := by
  obtain ⟨hp, -, hperf⟩ := step_some h.1
  have hwf := hk.wf hp
  have ht : t.panicked = false := by
    obtain ⟨c, np, custom, -, -, rfl⟩ := goOnFork_some hperf
    exact hp
  have hr : t.Reachable := hk.next h.1
  have hnum := hr.numbered ht
  obtain ⟨custom, hq⟩ := h.proc hwf
  have hused : (t.proc np).state ≠ .unused := by
    rw [hq]
    rcases initChild_state k.ticks custom (k.proc np) with hs | hs <;>
      rw [hs] <;> simp
  obtain ⟨hstep, c, custom', hc, ha⟩ := h
  have := hnum.pid np
  have := hnum.used np hused
  refine ⟨by omega, by omega, fun _ => ⟨fun hmk => ?_, hused⟩⟩
  rcases making_back hwf hstep hmk with ⟨-, hno⟩ | ⟨⟨_, he⟩, -⟩
  · exact hno ⟨c, custom', true, hc, ha, .inr rfl⟩
  · cases he

/-! ### Numbers -/

/-- No two slots hold processes with the same number. -/
def Kernel.Distinct (k : Kernel) : Prop :=
  ∀ i j, i ≠ j → (k.proc i).pid = (k.proc j).pid → (k.proc i).pid = 0

/-- `fork` gives out one number. -/
theorem fork_pid (h : k.step (.fork custom) = some t) : ∃ np, ∀ j ≠ np, (t.proc j).pid = (k.proc j).pid := by
  obtain ⟨-, -, hperf⟩ := Kernel.step_some h
  obtain ⟨c, -, -, -, rfl⟩ := Kernel.call_some hperf
  rw [Kernel.allocproc]
  cases k.find fun q => q.state = .unused with
  | none => exact ⟨c, fun _ _ => rfl⟩
  | some np =>
    refine ⟨np, fun j hj => ?_⟩
    dsimp only
    rw [Kernel.modify_apply]
    split <;> rw [Kernel.modify_proc_of_ne hj]

theorem Kernel.Distinct.step (hk : k.Wf) (hn : k.Numbered) (hd : k.Distinct) (h : k.step e = some t) :
    t.Distinct := by
  have hpid (i : Slot) := (step_move hk h i).pid hk
  -- a slot with a number that was there before differs from one with a new number
  have new (i j : Slot) (hne : i ≠ j) (he : ∃ custom, e = .fork custom)
      (hi : (t.proc i).pid = k.nextpid) (hj : (t.proc j).pid = k.nextpid) : False := by
    obtain ⟨custom, rfl⟩ := he
    obtain ⟨np, hnp⟩ := fork_pid h
    have hlt (j : Slot) := (hn.pid j).2
    by_cases hi' : i = np
    · have := hnp j (by rw [← hi']; exact hne.symm)
      have := hlt j
      omega
    · have := hnp i hi'
      have := hlt i
      omega
  intro i j hne heq
  have hi' := hn.pid i
  have hj' := hn.pid j
  have hnext := hn.next
  rcases hpid i with ⟨hi, -⟩ | ⟨he, -, hi⟩ | ⟨hi, -⟩
  · rcases hpid j with ⟨hj, -⟩ | ⟨-, -, hj⟩ | ⟨hj, -⟩
    · have := hd i j hne (by omega)
      omega
    · omega
    · omega
  · rcases hpid j with ⟨hj, -⟩ | ⟨-, -, hj⟩ | ⟨hj, -⟩
    · omega
    · exact (new i j hne he hi hj).elim
    · omega
  · exact hi

theorem Kernel.Reachable.distinct (h : k.Reachable) (hp : k.panicked = false) : k.Distinct :=
  (Run.Reaches.invariant (I := fun k => k.panicked = false → k.Wf ∧ k.Numbered ∧ k.Distinct) h
    (fun _ _ _ hI hs hp =>
      have h := hI (Kernel.step_some hs).1
      ⟨h.1.step hs hp, h.2.1.step h.1 hs, h.2.2.step h.1 h.2.1 hs⟩)
    (fun _ => ⟨wf_boot, Kernel.Reachable.numbered (Run.Reaches.refl _) rfl, fun i j hne hij => by
      simp only [Kernel.boot] at hij ⊢
      split at hij
      · rename_i hi
        rw [if_neg fun hj => hne (Fin.ext (hi.trans hj.symm))] at hij
        cases hij
      · rename_i hi
        rw [if_neg hi]
        rfl⟩) hp).2.2

/-! ### The first process -/

/-- The first process neither exits nor is created again. -/
structure Kernel.InitLives (k : Kernel) : Prop where
  alive : (k.proc k.initproc).state ≠ .unused ∧ (k.proc k.initproc).state ≠ .zombie
  made : ¬k.Making k.initproc

theorem step_initproc (hk : k.Wf) (h : k.step e = some t) : t.initproc = k.initproc := by
  cases step_turn hk h with
  | stays _ h | leaves _ _ _ h | idles _ _ _ h | dispatches _ _ _ _ h => exact h.initproc
  | ticks _ _ h => exact h.initproc
  | asks _ h | panics _ h => rw [h]
  | returns _ _ _ h => rcases h with ⟨-, h, -⟩ | ⟨-, h, -⟩ <;> exact h.initproc

theorem Move.zombie (h : Move k e i p q) (hp : p.state ≠ .zombie) (hq : q.state = .zombie) :
    k.cur = some i ∧ i ≠ k.initproc ∧ e = .exit := by
  have old {s : ProcState} (hs : q.state = s) (hne : s ≠ .zombie) : k.cur = some i ∧ i ≠ k.initproc ∧ e = .exit :=
    absurd (hs.symm.trans hq) hne
  cases h with
  | roused h =>
    rcases h.state with hs | ⟨-, hs⟩
    · exact old hs hp
    · exact old hs (by simp)
  | exited he hc _ _ _ _ hi => exact ⟨hc, hi, he⟩
  | allocated _ _ _ h | failed _ _ _ _ _ h | started _ _ _ h | reaped _ _ _ h =>
    rw [h] at hq
    cases hq
  | copied _ _ _ _ _ hs => exact old hs hp
  | finished _ custom _ _ _ h =>
    rw [h] at hq
    rcases initChild_state k.ticks custom p with hs | hs <;>
      cases hs.symm.trans hq
  | slept _ _ _ hs | dispatched _ _ _ _ _ hs => exact old hs (by simp)
  | waited _ _ _ _ h => exact old (by rw [h]; rfl) hp
  | ran _ _ _ _ hs h =>
    rcases h with h | h <;> rw [h] at hq
    · cases hq
    · exact absurd hq hp
  | suspended _ _ _ h =>
    rcases h with ⟨-, h⟩ | ⟨-, h⟩ <;> rw [h] at hq <;> cases hq
  | gaveUp _ _ h =>
    rcases h with h | h <;> rw [h] at hq
    · cases hq
    · exact absurd hq hp

theorem Kernel.InitLives.step (hk : k.Wf) (hi : k.InitLives) (h : k.step e = some t) :
    t.InitLives := by
  have hm := step_move hk h k.initproc
  have heq := step_initproc hk h
  refine ⟨?_, ?_⟩ <;> rw [heq]
  · refine ⟨fun hs => ?_, fun hs => (hm.zombie hi.alive.2 hs).2.1 rfl⟩
    rcases hm.unused hi.alive.1 hs with ⟨c, custom, ha⟩ | ⟨-, hz⟩
    · exact hi.made ⟨c, custom, false, ha⟩
    · exact hi.alive.2 hz
  · intro hmk
    rcases making_back hk h hmk with ⟨h, -⟩ | ⟨-, hun⟩
    · exact hi.made h
    · exact hi.alive.1 hun

theorem Kernel.Reachable.initLives (h : k.Reachable) (hp : k.panicked = false) : k.InitLives :=
  (Run.Reaches.invariant (I := fun k => k.panicked = false → k.Wf ∧ k.InitLives) h
    (fun _ _ _ hI hs hp =>
      have h := hI (Kernel.step_some hs).1
      ⟨h.1.step hs hp, h.2.step h.1 hs⟩)
    (fun _ => ⟨wf_boot, ⟨by rintro ⟨⟩, by rintro ⟨⟩⟩, by
      rintro ⟨c, _, _, ha⟩
      cases (boot_proc c).1.symm.trans ha⟩) hp).2

theorem Kernel.Reachable.initproc (h : k.Reachable) : k.initproc = boot.initproc :=
  (Run.Reaches.invariant (I := fun k => (k.panicked = false → k.Wf) ∧ k.initproc = boot.initproc) h
    (fun _ _ _ hI hs =>
      have hwf := hI.1 (Kernel.step_some hs).1
      ⟨hwf.step hs, (step_initproc hwf hs).trans hI.2⟩)
    ⟨fun _ => wf_boot, rfl⟩).2

end Xv6.Jobs
