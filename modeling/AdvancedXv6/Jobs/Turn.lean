import AdvancedXv6.Jobs.Move

/-! Who runs: what a step does to the globals, and the invariant of all the states in which the
system can be. -/

namespace Xv6.Jobs
open Function

variable {k t u : Kernel} {e : Event} {i j c np : Slot} {p q : Proc}

/-- The globals of the scheduler and of the timer are the same. -/
structure Same (k t : Kernel) : Prop where
  cur : t.cur = k.cur
  initproc : t.initproc = k.initproc
  ticks : t.ticks = k.ticks
  lastTicks : t.lastTicks = k.lastTicks
  yieldOnTimer : t.yieldOnTimer = k.yieldOnTimer
  panicked : t.panicked = k.panicked
  nextpid : k.nextpid ≤ t.nextpid

theorem Same.refl (k : Kernel) : Same k k := ⟨rfl, rfl, rfl, rfl, rfl, rfl, Int.le_refl _⟩

theorem Same.trans (h : Same k t) (h' : Same t u) : Same k u :=
  ⟨h'.cur.trans h.cur, h'.initproc.trans h.initproc, h'.ticks.trans h.ticks,
    h'.lastTicks.trans h.lastTicks, h'.yieldOnTimer.trans h.yieldOnTimer,
    h'.panicked.trans h.panicked, h.nextpid.trans h'.nextpid⟩

theorem same_modify {f : Proc → Proc} : Same k (k.modify i f) := ⟨rfl, rfl, rfl, rfl, rfl, rfl, Int.le_refl _⟩

theorem same_kill {pid : Int} : Same k (k.kill pid) := by
  rw [Kernel.kill]
  cases k.find fun q => q.pid = pid with
  | none => exact ⟨rfl, rfl, rfl, rfl, rfl, rfl, Int.le_refl _⟩
  | some j => exact ⟨rfl, rfl, rfl, rfl, rfl, rfl, Int.le_refl _⟩

theorem same_killUser : Same k (k.killUser j) := by
  rw [Kernel.killUser]
  split
  · dsimp only
    split
    · exact same_modify.trans same_kill
    · exact same_modify
  · exact ⟨rfl, rfl, rfl, rfl, rfl, rfl, Int.le_refl _⟩

theorem same_killUserProcs : Same k k.killUserProcs := by
  rw [Kernel.killUserProcs]
  induction List.finRange nProc generalizing k with
  | nil => exact ⟨rfl, rfl, rfl, rfl, rfl, rfl, Int.le_refl _⟩
  | cons j l ih => exact same_killUser.trans ih

theorem same_passOn : Same k (k.passOn c) := by
  rw [Kernel.passOn]
  split <;> exact ⟨rfl, rfl, rfl, rfl, rfl, rfl, Int.le_refl _⟩

theorem same_schedReturn : Same k (k.schedReturn c) := by
  rw [Kernel.schedReturn]
  cases k.prevProc with
  | none => exact ⟨rfl, rfl, rfl, rfl, rfl, rfl, Int.le_refl _⟩
  | some j =>
    dsimp only
    split <;> exact ⟨rfl, rfl, rfl, rfl, rfl, rfl, Int.le_refl _⟩

theorem same_allocproc {custom : Option (Int × Int)} : Same k (k.allocproc c custom) := by
  rw [Kernel.allocproc]
  cases k.find fun q => q.state = .unused with
  | none => exact .refl k
  | some np => exact ⟨rfl, rfl, rfl, rfl, rfl, rfl, Int.le_of_lt (Int.lt_succ _)⟩

theorem same_ctrlG : Same k k.ctrlG := by
  rw [Kernel.ctrlG]
  cases k.cur with
  | none => exact ⟨rfl, rfl, rfl, rfl, rfl, rfl, Int.le_refl _⟩
  | some c =>
    dsimp only
    split <;> exact ⟨rfl, rfl, rfl, rfl, rfl, rfl, Int.le_refl _⟩

theorem same_updateTimes :
    Same { k with lastTicks := if k.lastTicks < k.ticks then k.ticks else k.lastTicks } k.updateTimes := by
  rw [Kernel.updateTimes]
  cases hc : k.cur with
  | none => exact ⟨hc, rfl, rfl, rfl, rfl, rfl, Int.le_refl _⟩
  | some c => exact ⟨hc, rfl, rfl, rfl, rfl, rfl, Int.le_refl _⟩

theorem same_tick : Same { k with
    lastTicks := if k.lastTicks < k.ticks then k.ticks else k.lastTicks
    ticks := (k.ticks + 1) % 2 ^ 32 } k.tick := by
  have h := same_updateTimes (k := k)
  refine ⟨h.cur, h.initproc, ?_, h.lastTicks, h.yieldOnTimer, h.panicked, h.nextpid⟩
  show (k.updateTimes.ticks + 1) % 2 ^ 32 = _
  rw [h.ticks]

theorem same_swtch : Same { k with panicked := (k.swtch c).panicked } (k.swtch c) := by
  have h := same_schedReturn (k := k) (c := c)
  rw [Kernel.swtch]
  split
  all_goals first | exact ⟨rfl, rfl, rfl, rfl, rfl, rfl, Int.le_refl _⟩ | exact ⟨h.cur, h.initproc, h.ticks, h.lastTicks, h.yieldOnTimer, rfl, h.nextpid⟩

theorem swtch_panicked (hk : k.panicked = false) : (k.swtch c).panicked = true ↔
    (k.proc c).context = .none ∨ (k.proc c).context = .exit := by
  have h := same_schedReturn (k := k) (c := c)
  rw [Kernel.swtch]
  split
  all_goals simp_all [h.panicked, Kernel.modify]

/-- The steps that change the table only. -/
def Event.Quiet : Event → Prop
  | .exit | .wait | .sleep _ | .ctrlB | .timer _ | .afterYield | .scheduler => False
  | _ => True

theorem same_of_quiet (he : e.Quiet) (h : k.step e = some t) : Same k t := by
  obtain ⟨-, -, h⟩ := Kernel.step_some h
  cases e with
  | fork custom =>
    obtain ⟨c, -, -, -, rfl⟩ := Kernel.call_some h
    exact same_allocproc
  | forkFail =>
    obtain ⟨c, np, custom, -, -, rfl⟩ := Kernel.goOnFork_some h
    exact ⟨rfl, rfl, rfl, rfl, rfl, rfl, Int.le_refl _⟩
  | forkCopy =>
    obtain ⟨c, np, custom, -, -, rfl⟩ := Kernel.goOnFork_some h
    exact ⟨rfl, rfl, rfl, rfl, rfl, rfl, Int.le_refl _⟩
  | forkFinish =>
    obtain ⟨c, np, custom, -, -, rfl⟩ := Kernel.goOnFork_some h
    exact ⟨rfl, rfl, rfl, rfl, rfl, rfl, Int.le_refl _⟩
  | kill pid =>
    obtain ⟨c, -, -, -, rfl⟩ := Kernel.call_some h
    exact same_kill
  | schedulerStart =>
    obtain ⟨c, -, -, -, rfl⟩ := Kernel.call_some h
    exact ⟨rfl, rfl, rfl, rfl, rfl, rfl, Int.le_refl _⟩
  | exec eip esp =>
    obtain ⟨c, -, -, -, rfl⟩ := Kernel.call_some h
    exact ⟨rfl, rfl, rfl, rfl, rfl, rfl, Int.le_refl _⟩
  | signal handler =>
    obtain ⟨c, -, -, -, rfl⟩ := Kernel.call_some h
    exact ⟨rfl, rfl, rfl, rfl, rfl, rfl, Int.le_refl _⟩
  | enter tf =>
    rw [Kernel.perform] at h
    split at h
    · obtain ⟨c, -, -, rfl⟩ := Kernel.goOn_some h
      exact ⟨rfl, rfl, rfl, rfl, rfl, rfl, Int.le_refl _⟩
    · cases h
  | trapEnd page kernel =>
    cases kernel with
    | none =>
      obtain ⟨c, -, -, rfl⟩ := Kernel.goOn_some h
      exact ⟨rfl, rfl, rfl, rfl, rfl, rfl, Int.le_refl _⟩
    | some tf =>
      rw [Kernel.perform] at h
      split at h
      · obtain ⟨c, -, rfl⟩ := Option.map_eq_some_iff.mp h
        exact ⟨rfl, rfl, rfl, rfl, rfl, rfl, Int.le_refl _⟩
      · cases h
  | fault low =>
    obtain ⟨c, -, h⟩ := Option.bind_eq_some_iff.mp h
    split at h
    · cases h
    · obtain rfl := Option.some.inj h
      exact ⟨rfl, rfl, rfl, rfl, rfl, rfl, Int.le_refl _⟩
  | wakeup x =>
    obtain rfl := Option.some.inj h
    exact ⟨rfl, rfl, rfl, rfl, rfl, rfl, Int.le_refl _⟩
  | ctrlC =>
    obtain rfl := Option.some.inj h
    exact same_killUserProcs
  | ctrlF =>
    obtain rfl := Option.some.inj h
    exact ⟨rfl, rfl, rfl, rfl, rfl, rfl, Int.le_refl _⟩
  | ctrlG =>
    obtain rfl := Option.some.inj h
    exact same_ctrlG
  | exit | wait | sleep _ | ctrlB | timer _ | afterYield | scheduler => exact he.elim

/-- What a step does to the globals, and to the state of the process that runs. -/
inductive Turn (k : Kernel) (e : Event) (t : Kernel) : Prop
  | stays (he : e.Quiet ∨ e = .wait) (h : Same k t)
      (hs : ∀ c, k.cur = some c → (t.proc c).state = .running)
  | asks (he : e = .ctrlB) (h : t = { k with yieldOnTimer := 1 })
  | panics (he : e = .exit) (h : t = { k with panicked := true })
  | leaves (c : Slot) (he : e = .exit ∨ e = .wait ∨ ∃ x, e = .sleep x) (hc : k.cur = some c)
      (h : Same { k with cur := none } t)
      (hs : (t.proc c).state = .sleeping ∨ (t.proc c).state = .zombie)
  | ticks (user : Bool) (he : e = .timer user) (h : Same { k with
      lastTicks := if k.lastTicks < k.ticks then k.ticks else k.lastTicks
      ticks := (k.ticks + 1) % 2 ^ 32
      cur := t.cur } t)
      (hc : t.cur = none ∧ (∀ c, k.cur = some c → (t.proc c).state = .runnable) ∨
        ∃ c, k.cur = some c ∧ t.cur = some c ∧ (t.proc c).state = .running ∧
          (t.proc c).activity = .exit)
  | returns (c : Slot) (he : e = .afterYield) (hc : k.cur = some c)
      (h : k.yieldOnTimer = 1 ∧ Same { k with cur := none, yieldOnTimer := 2 } t ∧
          ((t.proc c).state = .runnable ∨ (t.proc c).state = .suspended) ∨
        k.yieldOnTimer ≠ 1 ∧ Same k t ∧ (t.proc c).state = .running)
  | idles (he : e = .scheduler) (hc : k.cur = none) (hh : k.prioritise.highest = none) (h : Same k t)
  | dispatches (c : Slot) (he : e = .scheduler) (hc : k.cur = none)
      (hh : k.prioritise.highest = some c)
      (h : Same { k with cur := some c, panicked := t.panicked } t)
      (hp : t.panicked = true ↔ (k.proc c).context = .none ∨ (k.proc c).context = .exit)
      (hs : (t.proc c).state = .running)

theorem sched_leaves {x : Context} (hu : Same k u) (hs : (u.proc c).state = .sleeping ∨
      (u.proc c).state = .zombie) : Same { k with cur := none } (u.sched c x) ∧
    (((u.sched c x).proc c).state = .sleeping ∨ ((u.sched c x).proc c).state = .zombie) := by
  refine ⟨⟨rfl, hu.initproc, hu.ticks, hu.lastTicks, hu.yieldOnTimer, hu.panicked, hu.nextpid⟩, ?_⟩
  rw [Kernel.sched_proc, if_pos rfl]
  exact hs

theorem turn_sleep {x : Chan} (he : e = .exit ∨ e = .wait ∨ ∃ x, e = .sleep x) (hc : k.cur = some c)
    (hu : Same k u) : Turn k e (u.sleep c x) := by
  obtain ⟨h, hs⟩ := sched_leaves (x := .sleep) (c := c) (hu.trans (same_modify (i := c)
    (f := fun q => { q with chan := some x, state := .sleeping }))) (.inl (by rw [Kernel.modify_proc]))
  exact .leaves c he hc h hs

theorem turn_exit (hc : k.cur = some c) : Turn k .exit (k.exit c) := by
  rw [Kernel.exit]
  split
  · exact .panics rfl rfl
  · dsimp only
    generalize ((k.modify c (Kernel.stamp k.ticks)).proc c).parent.map Chan.proc = x
    have h₁ : Same k ((k.modify c (Kernel.stamp k.ticks)).wakeup1 x) :=
      ⟨rfl, rfl, rfl, rfl, rfl, rfl, Int.le_refl _⟩
    have hu := h₁.trans (same_passOn (c := c))
    generalize ((k.modify c (Kernel.stamp k.ticks)).wakeup1 x).passOn c = u at hu ⊢
    obtain ⟨h, hs⟩ := sched_leaves (x := .exit) (c := c) (hu.trans (same_modify (i := c)
      (f := fun q => { q with state := .zombie }))) (.inr (by rw [Kernel.modify_proc]))
    exact .leaves c (.inl rfl) hc h hs

theorem turn_wait (hk : k.Wf) (hc : k.cur = some c) : Turn k .wait (k.wait c) := by
  have hrun := (hk.running c).mpr hc
  rw [Kernel.wait]
  cases hf : k.find fun q => q.parent = some c ∧ q.state = .zombie with
  | some j =>
    have hj : (k.proc j).state = .zombie := by
      have := Kernel.find_some hf
      simp only [decide_eq_true_eq] at this
      exact this.2
    have hne : c ≠ j := by
      rintro rfl
      rw [hrun] at hj
      cases hj
    refine .stays (.inr rfl) ⟨rfl, rfl, rfl, rfl, rfl, rfl, Int.le_refl _⟩ fun c' hc' => ?_
    obtain rfl := Option.some.inj (hc.symm.trans hc')
    dsimp only
    rw [Kernel.modify_proc, Kernel.modify_proc_of_ne hne]
    exact hrun
  | none =>
    dsimp only
    split
    · refine .stays (.inr rfl) ⟨rfl, rfl, rfl, rfl, rfl, rfl, Int.le_refl _⟩ fun c' hc' => ?_
      obtain rfl := Option.some.inj (hc.symm.trans hc')
      rw [Kernel.modify_proc]
      exact hrun
    · exact turn_sleep (.inr (.inl rfl)) hc same_modify

theorem turn_timer (user : Bool) (hk : k.Wf) : Turn k (.timer user) (k.timer user) := by
  have h := same_tick (k := k)
  have hcur : k.tick.cur = k.cur := h.cur
  rw [Kernel.timer, hcur]
  cases hc : k.cur with
  | none => exact .ticks user rfl { h with cur := rfl } (.inl ⟨hcur.trans hc, fun _ h => absurd (hc.symm.trans h) (by simp)⟩)
  | some c =>
    obtain ⟨b, hb⟩ := tick_proc_cur hk hc
    have hrun : (k.tick.proc c).state = .running := by
      rw [hb]
      exact (hk.running c).mpr hc
    dsimp only
    split
    · refine .ticks user rfl { h with cur := rfl } (.inr ⟨c, hc, hcur.trans hc, ?_⟩)
      rw [Kernel.modify_proc]
      exact ⟨hrun, rfl⟩
    · rw [Kernel.yield]
      refine .ticks user rfl ⟨rfl, h.initproc, h.ticks, h.lastTicks, h.yieldOnTimer, h.panicked, h.nextpid⟩
        (.inl ⟨rfl, fun c' hc' => ?_⟩)
      obtain rfl := Option.some.inj (hc.symm.trans hc')
      rw [Kernel.sched_proc, if_pos rfl, Kernel.modify_proc]

theorem turn_afterYield (hk : k.Wf) (hc : k.cur = some c) : Turn k .afterYield (k.afterYield c) := by
  have hrun := (hk.running c).mpr hc
  rw [Kernel.afterYield]
  by_cases hy : k.yieldOnTimer = 1
  · rw [if_pos ⟨hrun, hy⟩]
    refine .returns c rfl hc (.inl ⟨hy, ⟨rfl, rfl, rfl, rfl, rfl, rfl, Int.le_refl _⟩, ?_⟩)
    rw [Kernel.yield2, Kernel.sched_proc, if_pos rfl, Kernel.modify_proc, Kernel.helper5]
    split
    · exact .inl rfl
    · rename_i hs
      exact .inr (not_not.mp hs)
  · rw [if_neg fun h => hy h.2]
    refine .returns c rfl hc (.inr ⟨hy, same_modify, ?_⟩)
    rw [Kernel.modify_proc]
    exact hrun

theorem turn_scheduler (hp : k.panicked = false) (hc : k.cur = none) :
    Turn k .scheduler k.scheduler := by
  rw [Kernel.scheduler]
  cases hh : k.prioritise.highest with
  | none => exact .idles rfl hc hh ⟨rfl, rfl, rfl, rfl, rfl, rfl, Int.le_refl _⟩
  | some c =>
    obtain ⟨m, hm⟩ := Kernel.prioritise_proc (k := k) (i := c)
    have hx : (((k.prioritise.helper4 c).modify c (Kernel.setRunning k.prioritise.ticks)).proc
        c).context = (k.proc c).context := by
      rw [Kernel.modify_proc, helper4_proc, hm]
      rfl
    have h := same_swtch (c := c)
      (k := (k.prioritise.helper4 c).modify c (Kernel.setRunning k.prioritise.ticks))
    refine .dispatches c rfl hc hh
      ⟨h.cur, h.initproc, h.ticks, h.lastTicks, h.yieldOnTimer, rfl, h.nextpid⟩ ?_ ?_
    · rw [← hx]
      exact swtch_panicked hp
    · obtain ⟨n, ch, x, hq, -⟩ := swtch_self (c := c)
        (u := (k.prioritise.helper4 c).modify c (Kernel.setRunning k.prioritise.ticks))
      rw [hq, Kernel.modify_proc]
      rfl

/-- The running process does not stop at a step that changes the table only. -/
theorem running_of_quiet (hk : k.Wf) (he : e.Quiet) (hm : Move k e c (k.proc c) q)
    (hc : k.cur = some c) : q.state = .running := by
  have hrun := (hk.running c).mpr hc
  cases hm with
  | roused h =>
    rcases h.state with hs | ⟨hs, -⟩
    · rw [hs]
      exact hrun
    · rw [hrun] at hs
      simp at hs
  | allocated custom _ hp _ => cases hp.symm.trans hrun
  | failed c' custom _ hc' ha _ | copied c' custom _ hc' ha _ | finished c' custom _ hc' ha _ =>
    obtain rfl := Option.some.inj (hc.symm.trans hc')
    exact absurd rfl (hk.fork _ _ _ _ ha).ne
  | started _ _ hp _ => cases hp.symm.trans hrun
  | slept he' _ _ _ _ _ => obtain rfl | ⟨x, rfl⟩ := he' <;> exact he.elim
  | exited he' | waited _ _ he' | ran _ _ he' | dispatched he' | suspended he' | gaveUp he' =>
    subst he'
    exact he.elim
  | reaped _ _ hp _ => cases hp.symm.trans hrun

theorem step_turn (hk : k.Wf) (h : k.step e = some t) : Turn k e t := by
  obtain ⟨hp, -, hperf⟩ := Kernel.step_some h
  by_cases he : e.Quiet
  · exact .stays (.inl he) (same_of_quiet he h) fun c hc => running_of_quiet hk he (step_move hk h c) hc
  cases e with
  | exit =>
    obtain ⟨c, hc, -, rfl⟩ := Kernel.goOn_some hperf
    exact turn_exit hc
  | wait =>
    obtain ⟨c, hc, -, rfl⟩ := Kernel.goOn_some hperf
    exact turn_wait hk hc
  | sleep x =>
    obtain ⟨c, hc, -, rfl⟩ := Kernel.goOn_some hperf
    exact turn_sleep (.inr (.inr ⟨x, rfl⟩)) hc (.refl k)
  | ctrlB =>
    obtain rfl := Option.some.inj hperf
    exact .asks rfl rfl
  | timer user =>
    rw [Kernel.perform] at hperf
    split at hperf
    · obtain rfl := Option.some.inj hperf
      exact turn_timer user hk
    · cases hperf
  | afterYield =>
    obtain ⟨c, hc, rfl⟩ := Option.map_eq_some_iff.mp hperf
    exact turn_afterYield hk hc
  | scheduler =>
    rw [Kernel.perform] at hperf
    split at hperf
    · obtain rfl := Option.some.inj hperf
      exact turn_scheduler hp ‹_›
    · cases hperf
  | _ => exact absurd trivial he

end Xv6.Jobs
