import AdvancedXv6.Jobs.Signals

/-! What one step does to `prev_proc` and to the counters `context_switches`. -/

namespace Xv6.Jobs
open Function

variable {k t u v : Kernel} {e : Event} {i j c np : Slot} {p : Proc} {n : Nat} {custom : Option (Int × Int)}

/-- Neither `prev_proc` nor a counter changes, nor the process that runs. -/
structure Uncounted (k u : Kernel) : Prop where
  switches : ∀ i, (u.proc i).contextSwitches = (k.proc i).contextSwitches
  prev : u.prevProc = k.prevProc
  cur : u.cur = k.cur

/-- `sched` has been entered, and left for the scheduler. -/
structure Yields (k t : Kernel) : Prop where
  switches : ∀ i, (t.proc i).contextSwitches = (k.proc i).contextSwitches
  prev : t.prevProc = k.prevProc.filter fun j => (t.proc j).state ≠ .zombie
  cur : k.cur ≠ none ∧ t.cur = none

theorem Uncounted.refl (k : Kernel) : Uncounted k k := ⟨fun _ => rfl, rfl, rfl⟩

theorem Uncounted.trans (h : Uncounted k u) (h' : Uncounted u v) : Uncounted k v :=
  ⟨fun i => (h'.switches i).trans (h.switches i), h'.prev.trans h.prev, h'.cur.trans h.cur⟩

theorem uncounted_modify {f : Proc → Proc} (hf : ∀ p, (f p).contextSwitches = p.contextSwitches) :
    Uncounted k (k.modify c f) := ⟨fun _ => proj_modify (π := Proc.contextSwitches) hf, rfl, rfl⟩

theorem uncounted_each {f : Slot → Proc → Proc} (hf : ∀ i p, (f i p).contextSwitches = p.contextSwitches) :
    Uncounted k (k.each f) := ⟨fun i => hf i _, rfl, rfl⟩

/-! ### The functions of the kernel -/

theorem yields_sched {x : Context} (h : Uncounted k u) (hc : k.cur = some c) : Yields k (u.sched c x) where
  switches i := (proj_modify (π := Proc.contextSwitches) (f := fun q => { q with context := x }) fun _ => rfl).trans
    (h.switches i)
  prev := by
    change u.prevProc.filter (fun j => (u.proc j).state ≠ .zombie) = _
    rw [h.prev]
    congr 1
    funext j
    rw [Kernel.sched_proc]
    split <;> rfl
  cur := ⟨fun hnone => Option.some_ne_none c (hc.symm.trans hnone), rfl⟩

theorem uncounted_wakeup1 {x : Option Chan} : Uncounted k (k.wakeup1 x) := uncounted_each fun _ p => by
  rw [Kernel.rouse]
  split <;> rfl

theorem uncounted_kill {pid : Int} : Uncounted k (k.kill pid) := by
  rw [Kernel.kill]
  cases k.find fun q => q.pid = pid with
  | none => exact .refl k
  | some j => exact uncounted_modify fun _ => by rfl

theorem uncounted_killUser : Uncounted k (k.killUser j) := by
  rw [Kernel.killUser]
  split
  · dsimp only
    split
    · exact (uncounted_modify fun _ => by rfl).trans uncounted_kill
    · exact uncounted_modify fun _ => by rfl
  · exact .refl k

theorem uncounted_killUserProcs : Uncounted k k.killUserProcs := by
  rw [Kernel.killUserProcs]
  induction List.finRange nProc generalizing k with
  | nil => exact .refl k
  | cons j l ih => exact uncounted_killUser.trans ih

theorem uncounted_passOn : Uncounted k (k.passOn c) := by
  have hadopt : Uncounted k (k.each fun _ => Kernel.adopt c k.initproc) := uncounted_each fun _ p => by
    rw [Kernel.adopt]
    split <;> rfl
  rw [Kernel.passOn]
  split
  · exact hadopt.trans uncounted_wakeup1
  · exact hadopt

theorem uncounted_allocproc : Uncounted k (k.allocproc c custom) := by
  rw [Kernel.allocproc]
  cases k.find fun q => q.state = .unused with
  | none => exact .refl k
  | some np =>
    have hnext : Uncounted k { k with nextpid := k.nextpid + 1 } := ⟨fun _ => rfl, rfl, rfl⟩
    exact (hnext.trans (uncounted_modify fun _ => by rfl)).trans (uncounted_modify fun _ => by rfl)

theorem uncounted_forkCopy : Uncounted k (k.forkCopy c np custom) := by
  rw [Kernel.forkCopy]
  refine (uncounted_modify fun p => ?_).trans (uncounted_modify fun _ => by rfl)
  cases custom <;> rfl

theorem uncounted_suspendUserProcs : Uncounted k k.suspendUserProcs := by
  refine (uncounted_each fun _ p => ?_).trans (uncounted_each fun _ p => ?_)
  · rw [Kernel.suspend]
    split <;> rfl
  · rw [Kernel.wakeShell]
    split <;> rfl

theorem uncounted_tick : Uncounted k k.tick := by
  have hwait : Uncounted k (k.each fun _ => Kernel.chargeWait k.elapsed) := uncounted_each fun _ p => by
    rw [Kernel.chargeWait]
    split <;> rfl
  have hcharge : Uncounted k k.updateTimes := by
    rw [Kernel.updateTimes]
    cases k.cur with
    | none => exact ⟨hwait.switches, hwait.prev, hwait.cur⟩
    | some p =>
      have hcpu := hwait.trans (uncounted_modify (c := p) (f := Kernel.chargeCpu k.elapsed) fun p => by
        rw [Kernel.chargeCpu]
        split
        · dsimp only
          split <;> rfl
        · rfl)
      exact ⟨hcpu.switches, hcpu.prev, hcpu.cur⟩
  have htick : Uncounted k { k.updateTimes with ticks := (k.updateTimes.ticks + 1) % 2 ^ 32 } :=
    ⟨hcharge.switches, hcharge.prev, hcharge.cur⟩
  exact htick.trans uncounted_wakeup1

theorem uncounted_trapEnd {page : Bool} {tf : Frame} :
    (Kernel.trapEnd page p tf).1.contextSwitches = p.contextSwitches := by
  rw [Kernel.trapEnd]
  split
  · rw [Kernel.handlePendingCustomSignal]
    split <;> rfl
  · rfl

theorem yields_sleep {x : Chan} (h : Uncounted k u) (hc : k.cur = some c) : Yields k (u.sleep c x) := by
  rw [Kernel.sleep]
  exact yields_sched (h.trans (uncounted_modify fun _ => by rfl)) hc

theorem yields_exit (hc : k.cur = some c) (hi : c ≠ k.initproc) : Yields k (k.exit c) := by
  rw [Kernel.exit, if_neg hi]
  have hstamp : Uncounted k (k.modify c (Kernel.stamp k.ticks)) := uncounted_modify fun _ => by rw [Kernel.stamp]
  exact yields_sched (((hstamp.trans uncounted_wakeup1).trans uncounted_passOn).trans (uncounted_modify fun _ => by rfl)) hc

theorem counted_wait (hc : k.cur = some c) : Uncounted k (k.wait c) ∨ Yields k (k.wait c) := by
  rw [Kernel.wait]
  split
  · exact .inl ((uncounted_modify fun _ => by rfl).trans (uncounted_modify fun _ => by rfl))
  · split
    · exact .inl (uncounted_modify fun _ => by rfl)
    · exact .inr (yields_sleep (uncounted_modify fun _ => by rfl) hc)

theorem counted_timer {user : Bool} : Uncounted k (k.timer user) ∨ Yields k (k.timer user) := by
  have hcur : k.tick.cur = k.cur := same_tick.cur
  rw [Kernel.timer]
  cases hc : k.tick.cur with
  | none => exact .inl uncounted_tick
  | some p =>
    dsimp only
    split
    · exact .inl (uncounted_tick.trans (uncounted_modify fun _ => by rfl))
    · split
      · rw [Kernel.yield]
        exact .inr (yields_sched (uncounted_tick.trans (uncounted_modify fun _ => by rfl)) (hcur.symm.trans hc))
      · exact .inl uncounted_tick

theorem counted_afterYield (hc : k.cur = some c) : Uncounted k (k.afterYield c) ∨ Yields k (k.afterYield c) := by
  rw [Kernel.afterYield]
  split
  · rw [Kernel.yield2]
    have hask : Uncounted k { k with yieldOnTimer := 2 } := ⟨fun _ => rfl, rfl, rfl⟩
    refine .inr (yields_sched ((hask.trans uncounted_suspendUserProcs).trans (uncounted_modify fun p => ?_)) hc)
    rw [Kernel.helper5]
    split <;> rfl
  · exact .inl (uncounted_modify fun _ => by rfl)

/-! ### Steps -/

/-- Steps count nothing unless the scheduler switches to a process, or `fork` ends. -/
theorem step_counted (h : k.step e = some t) (hs : e ≠ .scheduler) (hf : e ≠ .forkFinish) :
    Uncounted k t ∨ Yields k t := by
  obtain ⟨-, -, h⟩ := Kernel.step_some h
  cases e with
  | fork custom =>
    obtain ⟨c, -, -, -, rfl⟩ := Kernel.call_some h
    exact .inl uncounted_allocproc
  | forkFail =>
    obtain ⟨c, np, custom, -, -, rfl⟩ := Kernel.goOnFork_some h
    exact .inl ((uncounted_modify fun _ => by rfl).trans (uncounted_modify fun _ => by rfl))
  | forkCopy =>
    obtain ⟨c, np, custom, -, -, rfl⟩ := Kernel.goOnFork_some h
    exact .inl uncounted_forkCopy
  | forkFinish => exact absurd rfl hf
  | exit =>
    obtain ⟨c, hc, -, rfl⟩ := Kernel.goOn_some h
    by_cases hi : c = k.initproc
    · rw [Kernel.exit, if_pos hi]
      exact .inl ⟨fun _ => rfl, rfl, rfl⟩
    · exact .inr (yields_exit hc hi)
  | wait =>
    obtain ⟨c, hc, -, rfl⟩ := Kernel.goOn_some h
    exact counted_wait hc
  | kill pid =>
    obtain ⟨c, -, -, -, rfl⟩ := Kernel.call_some h
    exact .inl uncounted_kill
  | schedulerStart =>
    obtain ⟨c, -, -, -, rfl⟩ := Kernel.call_some h
    refine .inl (uncounted_each fun _ p => ?_)
    rw [Kernel.start]
    split <;> rfl
  | exec eip esp =>
    obtain ⟨c, -, -, -, rfl⟩ := Kernel.call_some h
    exact .inl (uncounted_modify fun _ => by rfl)
  | signal handler =>
    obtain ⟨c, -, -, -, rfl⟩ := Kernel.call_some h
    exact .inl (uncounted_modify fun _ => by rfl)
  | sleep x =>
    obtain ⟨c, hc, -, rfl⟩ := Kernel.goOn_some h
    exact .inr (yields_sleep (.refl k) hc)
  | enter tf =>
    rw [Kernel.perform] at h
    split at h
    · obtain ⟨c, -, -, rfl⟩ := Kernel.goOn_some h
      exact .inl (uncounted_modify fun _ => by rfl)
    · cases h
  | trapEnd page kernel =>
    cases kernel with
    | none =>
      obtain ⟨c, -, -, rfl⟩ := Kernel.goOn_some h
      exact .inl (uncounted_modify fun _ => uncounted_trapEnd)
    | some tf =>
      rw [Kernel.perform] at h
      split at h
      · obtain ⟨c, -, rfl⟩ := Option.map_eq_some_iff.mp h
        exact .inl (uncounted_modify fun _ => uncounted_trapEnd)
      · cases h
  | fault low =>
    obtain ⟨c, -, h⟩ := Option.bind_eq_some_iff.mp h
    split at h
    · cases h
    · obtain rfl := Option.some.inj h
      exact .inl (uncounted_modify fun _ => by rfl)
  | wakeup x =>
    obtain rfl := Option.some.inj h
    exact .inl uncounted_wakeup1
  | ctrlB =>
    obtain rfl := Option.some.inj h
    exact .inl ⟨fun _ => rfl, rfl, rfl⟩
  | ctrlC =>
    obtain rfl := Option.some.inj h
    exact .inl uncounted_killUserProcs
  | ctrlF =>
    obtain rfl := Option.some.inj h
    refine .inl (uncounted_each fun _ p => ?_)
    rw [Kernel.resume]
    split <;> rfl
  | ctrlG =>
    obtain rfl := Option.some.inj h
    rw [Kernel.ctrlG]
    cases k.cur with
    | none => exact .inl (.refl k)
    | some c =>
      dsimp only
      split
      · exact .inl (uncounted_modify fun _ => by rfl)
      · exact .inl (.refl k)
  | timer user =>
    rw [Kernel.perform] at h
    split at h
    · obtain rfl := Option.some.inj h
      exact counted_timer
    · cases h
  | afterYield =>
    obtain ⟨c, hc, rfl⟩ := Option.map_eq_some_iff.mp h
    exact counted_afterYield hc
  | scheduler => exact absurd rfl hs

/-- The end of `fork` sets the counter of the new process. -/
theorem forkFinish_counted (hk : k.Wf) (h : k.step .forkFinish = some t) : ∃ c np custom, k.cur = some c ∧
    (k.proc c).activity = .fork np custom true ∧ (t.proc np).contextSwitches = 0 ∧
    (∀ i, i ≠ np → (t.proc i).contextSwitches = (k.proc i).contextSwitches) ∧ t.prevProc = k.prevProc := by
  obtain ⟨-, -, hperf⟩ := Kernel.step_some h
  obtain ⟨c, np, custom, hc, ha, ht⟩ := Kernel.goOnFork_some hperf
  refine ⟨c, np, custom, hc, ha, ?_, fun i hi => ?_, ?_⟩
  · rw [forkFinish_proc hk h hc ha]
    cases custom <;> rfl
  · rw [ht, Kernel.forkFinish, proj_modify (π := Proc.contextSwitches) fun _ => by rfl, Kernel.modify_proc_of_ne hi]
  · rw [ht]
    rfl

/-- What the process `i` counts when the scheduler switches to `c`, which comes back inside `sched`. -/
def counted (k : Kernel) (c i : Slot) : Int :=
  if k.prevProc = some i ∧ (k.proc i).pid ≠ (k.proc c).pid then int ((k.proc i).contextSwitches + 1)
  else (k.proc i).contextSwitches

theorem schedReturn_switches : ((k.schedReturn c).proc i).contextSwitches = counted k c i := by
  rw [Kernel.schedReturn, counted]
  cases hp : k.prevProc with
  | none =>
    rw [if_neg]
    exact fun h => Option.some_ne_none i h.1.symm
  | some j =>
    dsimp only
    by_cases hij : i = j
    · subst hij
      by_cases hpid : (k.proc i).pid ≠ (k.proc c).pid
      · rw [if_pos hpid, if_pos ⟨rfl, hpid⟩, Kernel.modify_proc]
      · rw [if_neg hpid, if_neg fun h => hpid h.2]
    · have hno : ¬(some j = some i ∧ (k.proc i).pid ≠ (k.proc c).pid) := fun h => hij (Option.some.inj h.1).symm
      rw [if_neg hno]
      split
      · rw [Kernel.modify_proc_of_ne hij]
      · rfl

/-- A process that has run before comes back inside `sched`, a new one does not. -/
theorem dispatch_counted (hh : k.prioritise.highest = some c)
    (hx : (k.proc c).context ≠ .none ∧ (k.proc c).context ≠ .exit) :
    ((k.proc c).context = .forkret → k.scheduler.prevProc = k.prevProc ∧
      ∀ i, (k.scheduler.proc i).contextSwitches = (k.proc i).contextSwitches) ∧
    ((k.proc c).context ≠ .forkret → k.scheduler.prevProc = some c ∧
      ∀ i, (k.scheduler.proc i).contextSwitches = counted k c i) := by
  obtain ⟨u, hu⟩ : ∃ u, u = (k.prioritise.helper4 c).modify c (Kernel.setRunning k.ticks) := ⟨_, rfl⟩
  have hround : k.scheduler = u.swtch c := by
    rw [Kernel.scheduler, hh, hu]
    rfl
  have hprev : u.prevProc = k.prevProc := by
    rw [hu]
    rfl
  have hfields {β : Type} {π : Proc → β} (hprio : ∀ p n, π { p with dynPriority := n } = π p)
      (hpick : ∀ p, π (Kernel.pick k.ticks p) = π p) (hrun : ∀ p, π (Kernel.setRunning k.ticks p) = π p) (i : Slot) :
      π (u.proc i) = π (k.proc i) := by
    obtain ⟨n, hn⟩ := Kernel.prioritise_proc (k := k) (i := i)
    have hhelper : π ((k.prioritise.helper4 c).proc i) = π (k.prioritise.proc i) :=
      proj_modify (u := k.prioritise) (f := Kernel.pick k.ticks) hpick
    rw [hu, proj_modify hrun, hhelper, hn, hprio]
  have hcontext : (u.proc c).context = (k.proc c).context :=
    hfields (π := Proc.context) (fun _ _ => rfl) (fun _ => by rw [Kernel.pick]) (fun _ => rfl) c
  have hpid (i : Slot) : (u.proc i).pid = (k.proc i).pid :=
    hfields (π := Proc.pid) (fun _ _ => rfl) (fun _ => by rw [Kernel.pick]) (fun _ => rfl) i
  have hswitches (i : Slot) : (u.proc i).contextSwitches = (k.proc i).contextSwitches :=
    hfields (π := Proc.contextSwitches) (fun _ _ => rfl) (fun _ => by rw [Kernel.pick]) (fun _ => rfl) i
  have hcount (i : Slot) : counted u c i = counted k c i := by
    rw [counted, counted, hprev, hswitches, hpid, hpid]
  rw [← hcontext] at hx ⊢
  rw [hround]
  refine ⟨fun hnew => ?_, fun hold => ?_⟩
  · rw [Kernel.swtch, hnew]
    exact ⟨hprev, fun i => (proj_modify (π := Proc.contextSwitches) fun _ => by rfl).trans (hswitches i)⟩
  · have hback (f : Proc → Proc) (hf : ∀ p, (f p).contextSwitches = p.contextSwitches) :
        ((u.schedReturn c).modify c f).prevProc = some c ∧
          ∀ i, (((u.schedReturn c).modify c f).proc i).contextSwitches = counted k c i := by
      refine ⟨rfl, fun i => ?_⟩
      rw [proj_modify hf, schedReturn_switches, hcount]
    cases hx' : (u.proc c).context with
    | none => exact absurd hx' hx.1
    | exit => exact absurd hx' hx.2
    | forkret => exact absurd hx' hold
    | sleep =>
      rw [Kernel.swtch, hx']
      exact hback _ fun _ => rfl
    | yield =>
      rw [Kernel.swtch, hx']
      exact ⟨rfl, fun i => by rw [schedReturn_switches, hcount]⟩
    | yield2 =>
      rw [Kernel.swtch, hx']
      exact hback _ fun _ => rfl

end Xv6.Jobs
