import AdvancedXv6.Jobs.Step

/-! What one step can do to a process: the invariants of the later modules are proved from this
list. -/

namespace Xv6.Jobs
open Function

variable {k t : Kernel} {e : Event} {i j c np : Slot} {p q r : Proc}

/-- The steps after which the running process is in the middle of `fork`. -/
def Event.Forks : Event → Prop
  | .fork _ | .forkCopy => True
  | _ => False

def Activity.Forks : Activity → Prop
  | .fork _ _ _ => True
  | _ => False

/-- What a process is, what makes it wait and its counters stay; children are passed on, and the
running process goes from one activity to another. -/
structure Kept (k : Kernel) (e : Event) (i : Slot) (p q : Proc) : Prop where
  pid : q.pid = p.pid
  flag : q.startLaterFlag = p.startLaterFlag
  enabled : q.schedulingEnabled = p.schedulingEnabled
  creation : q.creationTime = p.creationTime
  initial : q.initialPriority = p.initialPriority
  cpu : q.cpuTicks = p.cpuTicks
  wait : q.waitTicks = p.waitTicks
  wait2 : q.waitTicks2 = p.waitTicks2
  parent : q.parent = p.parent ∨ e = .exit ∧ p.parent = k.cur
  activity : q.activity = p.activity ∨
    k.cur = some i ∧ p.activity ≠ .exit ∧ (e.Forks ∨ ¬q.activity.Forks)

/-- Nothing happens to the process, or it is woken up or resumed. -/
structure Roused (k : Kernel) (e : Event) (i : Slot) (p q : Proc) : Prop extends Kept k e i p q where
  context : q.context = p.context
  state : q.state = p.state ∨
    (p.state = .sleeping ∨ p.state = .suspended) ∧ q.state = .runnable

inductive Move (k : Kernel) (e : Event) (i : Slot) (p q : Proc) : Prop
  | roused (h : Roused k e i p q)
  | allocated (custom : Option (Int × Int)) (he : e = .fork custom) (hp : p.state = .unused)
      (hq : q = { p with state := .embryo, pid := k.nextpid })
  | failed (c : Slot) (custom : Option (Int × Int)) (he : e = .forkFail) (hc : k.cur = some c)
      (ha : (k.proc c).activity = .fork i custom false) (hq : q = { p with state := .unused })
  | copied (c : Slot) (custom : Option (Int × Int)) (he : e = .forkCopy) (hc : k.cur = some c)
      (ha : (k.proc c).activity = .fork i custom false) (hstate : q.state = p.state)
      (hcontext : q.context = .forkret) (hactivity : q.activity = .none)
      (hparent : q.parent = some c) (hcpu : q.cpuTicks = p.cpuTicks)
      (hwait : q.waitTicks = p.waitTicks) (hwait2 : q.waitTicks2 = p.waitTicks2)
      (hcreation : q.creationTime = p.creationTime) (hinitial : q.initialPriority = p.initialPriority)
      (hbarred : q.Barred → p.Barred) (hpid : q.pid = p.pid)
  | finished (c : Slot) (custom : Option (Int × Int)) (he : e = .forkFinish) (hc : k.cur = some c)
      (ha : (k.proc c).activity = .fork i custom true)
      (hq : q = Kernel.initChild k.ticks custom p)
  | started (he : e = .schedulerStart) (hf : p.startLaterFlag ≠ 0) (hp : p.state = .sleeping)
      (hq : q = { p with state := .runnable, schedulingEnabled := 0 })
  | slept (he : e = .wait ∨ ∃ x, e = .sleep x) (hc : k.cur = some i) (h : Kept k e i p q) (hstate : q.state = .sleeping)
      (hcontext : q.context = .sleep) (ha : ¬p.activity.Forks)
  | exited (he : e = .exit) (hc : k.cur = some i) (h : Kept k e i p q) (hstate : q.state = .zombie)
      (hcontext : q.context = .exit) (hfinish : q.finishTime = int k.ticks) (hi : i ≠ k.initproc)
      (ha : ¬p.activity.Forks)
  | reaped (he : e = .wait) (hc : p.parent = k.cur) (hp : p.state = .zombie) (hq : q = { p with
      pid := 0, parent := none, killed := false, state := .unused, context := .none })
  | waited (user : Bool) (n : Int) (he : e = .timer user) (hp : p.state = .runnable)
      (hq : q = { Kernel.helper7 k.elapsed p with dynPriority := n })
  | ran (user b : Bool) (he : e = .timer user) (hc : k.cur = some i) (hp : p.state = .running)
      (hq : q = { p with
          cpuTicks := int (p.cpuTicks + k.elapsed), killed := b, state := .runnable, context := .yield } ∨
        q = { p with cpuTicks := int (p.cpuTicks + k.elapsed), killed := b, activity := .exit })
  | dispatched (he : e = .scheduler) (hc : k.cur = none) (hi : k.prioritise.highest = some i)
      (hp : p.state = .runnable) (hb : ¬p.Barred) (hstate : q.state = .running)
      (hwait : q.waitTicks = 0) (hcpu : q.cpuTicks = p.cpuTicks) (hwait2 : q.waitTicks2 = p.waitTicks2)
      (hcreation : q.creationTime = p.creationTime) (hinitial : q.initialPriority = p.initialPriority)
      (hflag : q.startLaterFlag = p.startLaterFlag) (henabled : q.schedulingEnabled = p.schedulingEnabled)
      (hparent : q.parent = p.parent) (hactivity : q.activity = p.activity) (hpid : q.pid = p.pid)
      (hcontext : (q.context = .none ∨ q.context = .yield) ∧ p.context ≠ .none ∧ p.context ≠ .exit ∨
        q.context = p.context ∧ (p.context = .none ∨ p.context = .exit))
  | suspended (he : e = .afterYield) (hy : k.yieldOnTimer = 1) (hp : p.pid ≠ 0 ∧ p.pid ≠ 1 ∧ p.pid ≠ 2)
      (hq : k.cur ≠ some i ∧ q = { p with state := .suspended } ∨
        k.cur = some i ∧ q = { p with state := .suspended, context := .yield2 })
  | gaveUp (he : e = .afterYield) (hc : k.cur = some i)
      (hq : q = { p with state := .runnable, context := .yield2 } ∨ q = { p with context := .none })

theorem Roused.of_eq (h : q = p) : Roused k e i p q := by
  subst h
  exact ⟨⟨rfl, rfl, rfl, rfl, rfl, rfl, rfl, rfl, .inl rfl, .inl rfl⟩, rfl, .inl rfl⟩

theorem Roused.trans (h : Roused k e i p q) (h' : Roused k e i q r) : Roused k e i p r where
  pid := h'.pid.trans h.pid
  flag := h'.flag.trans h.flag
  enabled := h'.enabled.trans h.enabled
  creation := h'.creation.trans h.creation
  initial := h'.initial.trans h.initial
  cpu := h'.cpu.trans h.cpu
  wait := h'.wait.trans h.wait
  wait2 := h'.wait2.trans h.wait2
  parent := by
    rcases h'.parent with hr | ⟨he, hr⟩
    · rw [hr]
      exact h.parent
    · rcases h.parent with hq | hq
      · exact .inr ⟨he, hq ▸ hr⟩
      · exact .inr hq
  activity := by
    rcases h'.activity with hr | ⟨hc, hq, hr⟩
    · rw [hr]
      exact h.activity
    · refine .inr ⟨hc, ?_, hr⟩
      rcases h.activity with hp | ⟨-, hp, -⟩
      · rwa [← hp]
      · exact hp
  context := h'.context.trans h.context
  state := by
    rcases h'.state with hr | ⟨hq, hr⟩
    · rw [hr]
      exact h.state
    · rcases h.state with hs | ⟨-, hs⟩
      · exact .inr ⟨hs ▸ hq, hr⟩
      · rw [hs] at hq
        simp at hq

theorem Kept.put (h : Kept k e i p q) (s : ProcState) (x : Context) :
    Kept k e i p { q with state := s, context := x } :=
  ⟨h.pid, h.flag, h.enabled, h.creation, h.initial, h.cpu, h.wait, h.wait2, h.parent, h.activity⟩

namespace Kernel

/-- While `c` creates `np`: what is so in every state between two steps. -/
structure Forking (k : Kernel) (c np : Slot) (copied : Bool) : Prop where
  alive : k.cur = some c ∨ (k.proc c).context = .yield ∨ (k.proc c).context = .yield2
  ne : c ≠ np
  used : (k.proc np).state ≠ .unused
  early : copied = false → (k.proc np).context = .none ∧ k.cur ≠ some np
  parent : copied = true → (k.proc np).parent = some c
  unique : ∀ c' custom b, (k.proc c').activity = .fork np custom b → c' = c

structure Wf (k : Kernel) : Prop where
  running : ∀ i, (k.proc i).state = .running ↔ k.cur = some i
  context : ∀ i, k.cur = some i → (k.proc i).context = .none ∨ (k.proc i).context = .yield
  unused : ∀ i, (k.proc i).state = .unused → (k.proc i).context = .none
  zombie : ∀ i, (k.proc i).state = .zombie → (k.proc i).context = .exit
  fork : ∀ c np custom b, (k.proc c).activity = .fork np custom b → Forking k c np b

theorem modify_apply {f : Proc → Proc} :
    (k.modify j f).proc i = if i = j then f (k.proc i) else k.proc i := by
  by_cases h : i = j
  · subst h
    rw [modify_proc, if_pos rfl]
  · rw [modify_proc_of_ne h, if_neg h]

theorem sched_proc {x : Context} : (k.sched c x).proc i =
    if i = c then { k.proc i with context := x } else k.proc i :=
  modify_apply (f := fun q => { q with context := x })

theorem schedReturn_proc : ∃ n, (k.schedReturn c).proc i = { k.proc i with contextSwitches := n } := by
  rw [schedReturn]
  cases k.prevProc with
  | none => exact ⟨_, rfl⟩
  | some j =>
    dsimp only
    split
    · rw [modify_apply]
      split <;> exact ⟨_, rfl⟩
    · exact ⟨_, rfl⟩

theorem prioritise_proc : ∃ n, k.prioritise.proc i = { k.proc i with dynPriority := n } := by
  show ∃ n, (if (k.proc i).state = .runnable then _ else _) = _
  split
  · rw [helper3]
    split <;> exact ⟨_, rfl⟩
  · exact ⟨_, rfl⟩

end Kernel

theorem roused_rouse {x : Option Chan} : Roused k e i p (Kernel.rouse x p) := by
  rw [Kernel.rouse]
  split
  · rename_i h
    exact ⟨⟨rfl, rfl, rfl, rfl, rfl, rfl, rfl, rfl, .inl rfl, .inl rfl⟩, rfl, .inr ⟨.inl h.1, rfl⟩⟩
  · exact .of_eq rfl

/-- `wakeup1` while the processes are as `u` has them. -/
theorem roused_wakeup1 {u : Kernel} {x : Option Chan} :
    Roused k e i (u.proc i) ((u.wakeup1 x).proc i) := roused_rouse

theorem roused_kill {u : Kernel} {pid : Int} : Roused k e i (u.proc i) ((u.kill pid).proc i) := by
  rw [Kernel.kill]
  cases u.find fun q => q.pid = pid with
  | none => exact .of_eq rfl
  | some j =>
    dsimp only
    rw [Kernel.modify_apply]
    split
    · refine { (Roused.of_eq rfl : Roused k e i (u.proc i) (u.proc i)) with
        context := rfl, state := ?_ }
      dsimp only
      split
      · rename_i h
        exact .inr ⟨.inl h, rfl⟩
      · exact .inl rfl
    · exact .of_eq rfl

theorem roused_killUser {u : Kernel} : Roused k e i (u.proc i) ((u.killUser j).proc i) := by
  rw [Kernel.killUser]
  split
  · have h : Roused k e i (u.proc i) ((u.modify j fun q =>
        { q with state := if q.state = .suspended then .runnable else q.state }).proc i) := by
      rw [Kernel.modify_apply]
      split
      · refine { (Roused.of_eq rfl : Roused k e i (u.proc i) (u.proc i)) with
          context := rfl, state := ?_ }
        dsimp only
        split
        · rename_i h
          exact .inr ⟨.inr h, rfl⟩
        · exact .inl rfl
      · exact .of_eq rfl
    dsimp only
    split
    · exact h.trans roused_kill
    · exact h
  · exact .of_eq rfl

theorem roused_killUserProcs {u : Kernel} :
    Roused k e i (u.proc i) (u.killUserProcs.proc i) := by
  rw [Kernel.killUserProcs]
  induction List.finRange nProc generalizing u with
  | nil => exact .of_eq rfl
  | cons j l ih => exact roused_killUser.trans ih

namespace Kernel

theorem step_some (h : k.step e = some t) : k.panicked = false ∧
    k.busy = decide (e = .afterYield) ∧ k.perform e = some t := by
  rw [step] at h
  split at h
  · rename_i hb
    exact ⟨hb.1, hb.2, h⟩
  · cases h

theorem call_some {f : Slot → Kernel} (h : k.call f = some t) : ∃ c, k.cur = some c ∧
    (k.proc c).activity = .none ∧ (k.proc c).killed = false ∧ t = f c := by
  obtain ⟨c, hc, h⟩ := Option.bind_eq_some_iff.mp h
  split at h
  · rename_i ha
    exact ⟨c, hc, ha.1, by simpa using ha.2, (Option.some.inj h).symm⟩
  · cases h

theorem goOn_some {as : List Activity} {f : Slot → Kernel} (h : k.goOn as f = some t) :
    ∃ c, k.cur = some c ∧ (k.proc c).activity ∈ as ∧ t = f c := by
  obtain ⟨c, hc, h⟩ := Option.bind_eq_some_iff.mp h
  split at h
  · rename_i ha
    exact ⟨c, hc, ha, (Option.some.inj h).symm⟩
  · cases h

theorem goOnFork_some {copied : Bool} {f : Slot → Slot → Option (Int × Int) → Kernel}
    (h : k.goOnFork copied f = some t) : ∃ c np custom, k.cur = some c ∧
      (k.proc c).activity = .fork np custom copied ∧ t = f c np custom := by
  obtain ⟨c, hc, ht⟩ := Option.bind_eq_some_iff.mp h
  split at ht
  · rename_i np custom b ha
    split at ht
    · rename_i hb
      exact ⟨c, np, custom, hc, hb ▸ ha, (Option.some.inj ht).symm⟩
    · cases ht
  · cases ht

end Kernel

/-! ### One lemma for each kind of step -/

/-- The process `c` changes in fields that say nothing about what it is or waits for. -/
theorem roused_modify {u : Kernel} {f : Proc → Proc} (h : i = c → Roused k e i (u.proc i) (f (u.proc i))) :
    Roused k e i (u.proc i) ((u.modify c f).proc i) := by
  rw [Kernel.modify_apply]
  split
  · exact h ‹_›
  · exact .of_eq rfl

theorem roused_activity {a : Activity} {u : Kernel} (hc : k.cur = some c)
    (hu : (u.proc c).activity ≠ .exit) (ha : e.Forks ∨ ¬a.Forks) :
    Roused k e i (u.proc i) ((u.modify c fun q => { q with activity := a }).proc i) :=
  roused_modify fun hi => { (Roused.of_eq rfl : Roused k e i (u.proc i) (u.proc i)) with
    activity := .inr ⟨hi ▸ hc, hi ▸ hu, ha⟩, context := rfl, state := .inl rfl }

theorem roused_schedReturn {u : Kernel} : Roused k e i (u.proc i) ((u.schedReturn c).proc i) := by
  obtain ⟨n, hn⟩ := Kernel.schedReturn_proc (k := u) (c := c) (i := i)
  rw [hn]
  exact { (Roused.of_eq rfl : Roused k e i (u.proc i) (u.proc i)) with context := rfl, state := .inl rfl }

theorem move_fork {custom : Option (Int × Int)} (hk : k.Wf) (hc : k.cur = some c)
    (ha : (k.proc c).activity = .none) :
    Move k (.fork custom) i (k.proc i) ((k.allocproc c custom).proc i) := by
  rw [Kernel.allocproc]
  cases hf : k.find fun q => q.state = .unused with
  | none => exact .roused (.of_eq rfl)
  | some np =>
    have hnp : (k.proc np).state = .unused := by simpa using Kernel.find_some hf
    have hne : np ≠ c := by
      rintro rfl
      rw [(hk.running _).mpr hc] at hnp
      cases hnp
    dsimp only
    by_cases hi : i = np
    · subst hi
      rw [Kernel.modify_proc_of_ne hne]
      exact .allocated custom rfl hnp Kernel.modify_proc
    · refine .roused (Roused.trans (.of_eq ?_) (roused_activity (e := .fork custom) hc ?_ (.inl trivial)))
      · exact Kernel.modify_proc_of_ne hi
      · rw [Kernel.modify_proc_of_ne hne.symm]
        show (k.proc c).activity ≠ .exit
        rw [ha]
        simp

theorem move_forkFail {custom : Option (Int × Int)} (hk : k.Wf) (hc : k.cur = some c)
    (ha : (k.proc c).activity = .fork np custom false) :
    Move k .forkFail i (k.proc i) ((k.forkFail c np).proc i) := by
  have hne := (hk.fork c np custom false ha).ne
  rw [Kernel.forkFail]
  by_cases hi : i = np
  · subst hi
    rw [Kernel.modify_proc_of_ne hne.symm]
    exact .failed c custom rfl hc ha Kernel.modify_proc
  · refine .roused (Roused.trans (.of_eq ?_) (roused_activity hc ?_ (.inr id)))
    · exact Kernel.modify_proc_of_ne hi
    · rw [Kernel.modify_proc_of_ne hne, ha]
      simp

theorem move_forkCopy {custom : Option (Int × Int)} (hk : k.Wf) (hc : k.cur = some c)
    (ha : (k.proc c).activity = .fork np custom false) :
    Move k .forkCopy i (k.proc i) ((k.forkCopy c np custom).proc i) := by
  have hne := (hk.fork c np custom false ha).ne
  rw [Kernel.forkCopy]
  by_cases hi : i = np
  · subst hi
    rw [Kernel.modify_proc_of_ne hne.symm, Kernel.modify_proc]
    cases custom with
    | none =>
      exact .copied c none rfl hc ha rfl rfl rfl rfl rfl rfl rfl rfl rfl
        (fun h => absurd h.1 (show (0 : Int) ≠ 1 by decide)) rfl
    | some x => exact .copied c (some x) rfl hc ha rfl rfl rfl rfl rfl rfl rfl rfl rfl id rfl
  · refine .roused (Roused.trans (.of_eq ?_) (roused_activity (e := .forkCopy) hc ?_ (.inl trivial)))
    · exact Kernel.modify_proc_of_ne hi
    · rw [Kernel.modify_proc_of_ne hne, ha]
      simp

theorem move_forkFinish {custom : Option (Int × Int)} (hk : k.Wf) (hc : k.cur = some c)
    (ha : (k.proc c).activity = .fork np custom true) :
    Move k .forkFinish i (k.proc i) ((k.forkFinish c np custom).proc i) := by
  have hne := (hk.fork c np custom true ha).ne
  rw [Kernel.forkFinish]
  by_cases hi : i = np
  · subst hi
    rw [Kernel.modify_proc_of_ne hne.symm]
    exact .finished c custom rfl hc ha Kernel.modify_proc
  · refine .roused (Roused.trans (.of_eq ?_) (roused_activity hc ?_ (.inr id)))
    · exact Kernel.modify_proc_of_ne hi
    · rw [Kernel.modify_proc_of_ne hne, ha]
      simp

theorem move_sleep {x : Chan} {u : Kernel} (he : e = .wait ∨ ∃ x, e = .sleep x)
    (hc : k.cur = some c) (ha : ¬(k.proc c).activity.Forks)
    (hu : Roused k e i (k.proc i) (u.proc i)) :
    Move k e i (k.proc i) ((u.sleep c x).proc i) := by
  rw [Kernel.sleep, Kernel.sched_proc]
  split
  · rename_i hi
    subst hi
    rw [Kernel.modify_proc]
    exact .slept he hc { hu with } rfl rfl ha
  · rename_i hi
    rw [Kernel.modify_proc_of_ne hi]
    exact .roused hu

theorem roused_passOn {u : Kernel} (hc : k.cur = some c) :
    Roused k .exit i (u.proc i) ((u.passOn c).proc i) := by
  have h : Roused k .exit i (u.proc i) (Kernel.adopt c u.initproc (u.proc i)) := by
    rw [Kernel.adopt]
    split
    · rename_i hp
      exact ⟨⟨rfl, rfl, rfl, rfl, rfl, rfl, rfl, rfl, .inr ⟨rfl, hp.trans hc.symm⟩, .inl rfl⟩, rfl,
        .inl rfl⟩
    · exact .of_eq rfl
  rw [Kernel.passOn]
  split
  · exact h.trans (roused_wakeup1 (u := u.each fun _ => Kernel.adopt c u.initproc))
  · exact h

theorem rouse_finishTime {x : Option Chan} : (Kernel.rouse x p).finishTime = p.finishTime := by
  rw [Kernel.rouse]
  split <;> rfl

theorem passOn_finishTime {u : Kernel} :
    ((u.passOn c).proc i).finishTime = (u.proc i).finishTime := by
  have h : (Kernel.adopt c u.initproc (u.proc i)).finishTime = (u.proc i).finishTime := by
    rw [Kernel.adopt]
    split <;> rfl
  rw [Kernel.passOn]
  split
  · exact (rouse_finishTime (p := Kernel.adopt c u.initproc (u.proc i))).trans h
  · exact h

theorem roused_stamp {n : Nat} : Roused k e i p (Kernel.stamp n p) := by
  rw [Kernel.stamp]
  generalize int n = x
  exact ⟨⟨rfl, rfl, rfl, rfl, rfl, rfl, rfl, rfl, .inl rfl, .inl rfl⟩, rfl, .inl rfl⟩

theorem move_exit (hc : k.cur = some c) (hi : c ≠ k.initproc) (ha : ¬(k.proc c).activity.Forks) :
    Move k .exit i (k.proc i) ((k.exit c).proc i) := by
  rw [Kernel.exit, if_neg hi, Kernel.sched_proc]
  dsimp only
  generalize ((k.modify c (Kernel.stamp k.ticks)).proc c).parent.map Chan.proc = x
  have h : Roused k .exit i (k.proc i)
      ((((k.modify c (Kernel.stamp k.ticks)).wakeup1 x).passOn c).proc i) :=
    ((roused_modify fun _ => roused_stamp).trans roused_wakeup1).trans (roused_passOn hc)
  have hfin : ((((k.modify c (Kernel.stamp k.ticks)).wakeup1 x).passOn c).proc c).finishTime =
      int k.ticks := by
    rw [passOn_finishTime]
    refine rouse_finishTime.trans ?_
    rw [Kernel.modify_proc]
    rfl
  generalize ((k.modify c (Kernel.stamp k.ticks)).wakeup1 x).passOn c = u at *
  split
  · rename_i hic
    subst hic
    rw [Kernel.modify_proc]
    exact .exited rfl hc (h.put _ _) rfl rfl hfin hi ha
  · rename_i hic
    rw [Kernel.modify_proc_of_ne hic]
    exact .roused h

theorem move_wait (hk : k.Wf) (hc : k.cur = some c) (ha : ¬(k.proc c).activity.Forks)
    (hno : (k.proc c).activity ≠ .exit) :
    Move k .wait i (k.proc i) ((k.wait c).proc i) := by
  rw [Kernel.wait]
  cases hf : k.find fun q => q.parent = some c ∧ q.state = .zombie with
  | some j =>
    have hj : (k.proc j).parent = some c ∧ (k.proc j).state = .zombie := by
      simpa using Kernel.find_some hf
    have hne : j ≠ c := by
      rintro rfl
      rw [(hk.running _).mpr hc] at hj
      cases hj.2
    dsimp only
    by_cases hi : i = j
    · subst hi
      rw [Kernel.modify_proc_of_ne hne, Kernel.modify_proc]
      exact .reaped rfl (hj.1.trans hc.symm) hj.2 rfl
    · refine .roused (Roused.trans (.of_eq ?_) (roused_activity hc ?_ (.inr id)))
      · exact Kernel.modify_proc_of_ne hi
      · rwa [Kernel.modify_proc_of_ne hne.symm]
  | none =>
    dsimp only
    split
    · exact .roused (roused_activity hc hno (.inr id))
    · exact move_sleep (.inl rfl) hc ha (roused_activity hc hno (.inr id))

/-- `suspend_user_procs` with the rest of `yield2` does this to the other processes. -/
theorem suspended_other (hy : k.yieldOnTimer = 1) (hi : k.cur ≠ some i) :
    Move k .afterYield i p (Kernel.wakeShell (Kernel.suspend p)) := by
  rw [Kernel.suspend]
  split
  · rename_i hp
    rw [Kernel.wakeShell, if_neg (fun h => hp.1 h.1)]
    exact .suspended rfl hy ⟨hp.2.2, hp.2.1, hp.1⟩ (.inl ⟨hi, rfl⟩)
  · rw [Kernel.wakeShell]
    split
    · rename_i hp
      exact .roused ⟨⟨rfl, rfl, rfl, rfl, rfl, rfl, rfl, rfl, .inl rfl, .inl rfl⟩, rfl,
        .inr ⟨.inl hp.2, rfl⟩⟩
    · exact .roused (.of_eq rfl)

theorem suspended_self (hy : k.yieldOnTimer = 1) (hi : k.cur = some i) (hp : p.state = .running) :
    Move k .afterYield i p
      { Kernel.helper5 (Kernel.wakeShell (Kernel.suspend p)) with context := .yield2 } := by
  rw [Kernel.suspend]
  split
  · rename_i hpid
    rw [Kernel.wakeShell, if_neg (fun h => hpid.1 h.1), Kernel.helper5, if_neg (by simp)]
    exact .suspended rfl hy ⟨hpid.2.2, hpid.2.1, hpid.1⟩ (.inr ⟨hi, rfl⟩)
  · rw [Kernel.wakeShell, if_neg (fun h => by rw [hp] at h; cases h.2), Kernel.helper5,
      if_pos (by rw [hp]; simp)]
    exact .gaveUp rfl hi (.inl rfl)

theorem move_afterYield (hc : k.cur = some c) :
    Move k .afterYield i (k.proc i) ((k.afterYield c).proc i) := by
  rw [Kernel.afterYield]
  split
  · rename_i hy
    rw [Kernel.yield2, Kernel.sched_proc]
    split
    · rename_i hi
      subst hi
      rw [Kernel.modify_proc]
      exact suspended_self hy.2 hc hy.1
    · rename_i hi
      rw [Kernel.modify_proc_of_ne hi]
      exact suspended_other hy.2 fun h => hi (Option.some.inj (h.symm.trans hc))
  · rw [Kernel.modify_apply]
    split
    · rename_i hi
      subst hi
      exact .gaveUp rfl hc (.inr rfl)
    · exact .roused (.of_eq rfl)

/-! ### The timer and the scheduler -/

theorem chargeWait_of_running {d : Int} (h : p.state = .running) : Kernel.chargeWait d p = p := by
  rw [Kernel.chargeWait, if_neg (by rw [h]; simp)]

theorem updateTimes_proc_of_ne (h : k.cur ≠ some i) :
    k.updateTimes.proc i = Kernel.chargeWait k.elapsed (k.proc i) := by
  rw [Kernel.updateTimes]
  cases hc : k.cur with
  | none => rfl
  | some c => exact Kernel.modify_proc_of_ne fun e => h (e ▸ hc)

theorem updateTimes_proc (hc : k.cur = some i) :
    k.updateTimes.proc i = Kernel.chargeCpu k.elapsed (Kernel.chargeWait k.elapsed (k.proc i)) := by
  rw [Kernel.updateTimes, hc]
  exact Kernel.modify_proc

theorem updateTimes_cur : k.updateTimes.cur = k.cur := by
  rw [Kernel.updateTimes]
  cases hc : k.cur with
  | none => exact hc
  | some c => exact hc

theorem tick_proc_cur (hk : k.Wf) (hi : k.cur = some i) : ∃ b, k.tick.proc i =
    { k.proc i with cpuTicks := int ((k.proc i).cpuTicks + k.elapsed), killed := b } := by
  have hrun := (hk.running i).mpr hi
  show ∃ b, Kernel.rouse (some .ticks) (k.updateTimes.proc i) = _
  rw [updateTimes_proc hi, chargeWait_of_running hrun, Kernel.chargeCpu, if_pos hrun]
  dsimp only
  split
  · exact ⟨true, if_neg (by simp [hrun])⟩
  · exact ⟨_, if_neg (by simp [hrun])⟩

theorem move_timer (user : Bool) (hk : k.Wf) :
    Move k (.timer user) i (k.proc i) ((k.timer user).proc i) := by
  have hcur : k.tick.cur = k.cur := updateTimes_cur
  by_cases hi : k.cur = some i
  · have hrun := (hk.running i).mpr hi
    obtain ⟨b, hb⟩ := tick_proc_cur hk hi
    rw [Kernel.timer, hcur, hi]
    dsimp only
    split
    · rw [Kernel.modify_proc, hb]
      exact .ran user b rfl hi hrun (.inr rfl)
    · rw [if_pos (by rw [hb]; exact hrun), Kernel.yield, Kernel.sched_proc, if_pos rfl,
        Kernel.modify_proc, hb]
      exact .ran user b rfl hi hrun (.inl rfl)
  · have h : Move k (.timer user) i (k.proc i) (k.tick.proc i) := by
      show Move k (.timer user) i (k.proc i) (Kernel.rouse (some .ticks) (k.updateTimes.proc i))
      rw [updateTimes_proc_of_ne hi, Kernel.chargeWait]
      split
      · rename_i hs
        rw [Kernel.rouse, if_neg (by simp [Kernel.helper7, hs])]
        exact .waited user _ rfl hs rfl
      · exact .roused roused_rouse
    rw [Kernel.timer, hcur]
    cases hc : k.cur with
    | none => exact h
    | some c =>
      have hic : i ≠ c := fun e => hi (e ▸ hc)
      dsimp only
      split
      · rw [Kernel.modify_proc_of_ne hic]
        exact h
      · split
        · rw [Kernel.yield, Kernel.sched_proc, if_neg hic, Kernel.modify_proc_of_ne hic]
          exact h
        · exact h

/-- `best` is what the second loop of `scheduler` has found in `l`. -/
structure Best (k : Kernel) (l : List Slot) (best : Option Slot) : Prop where
  selectable : ∀ i, best = some i → k.Selectable i
  highest : ∀ j ∈ l, k.Selectable j →
    ∃ i, best = some i ∧ (k.proc j).dynPriority ≤ (k.proc i).dynPriority

theorem Best.better {l : List Slot} {best : Option Slot} (h : Best k l best) (p : Slot) :
    Best k (l ++ [p]) (k.better best p) := by
  unfold Kernel.better
  by_cases hp : k.Selectable p
  · rw [if_pos hp]
    cases best with
    | none =>
      refine ⟨fun i hi => Option.some.inj hi ▸ hp, fun j hj hs => ?_⟩
      rcases List.mem_append.mp hj with hj | hj
      · obtain ⟨i, hi, -⟩ := h.highest j hj hs
        cases hi
      · obtain rfl := List.mem_singleton.mp hj
        exact ⟨j, rfl, Int.le_refl _⟩
    | some b =>
      dsimp only
      split
      · rename_i hlt
        refine ⟨fun i hi => Option.some.inj hi ▸ hp, fun j hj hs => ⟨p, rfl, ?_⟩⟩
        rcases List.mem_append.mp hj with hj | hj
        · obtain ⟨i, hi, hle⟩ := h.highest j hj hs
          obtain rfl := Option.some.inj hi
          omega
        · obtain rfl := List.mem_singleton.mp hj
          exact Int.le_refl _
      · rename_i hge
        refine ⟨h.selectable, fun j hj hs => ?_⟩
        rcases List.mem_append.mp hj with hj | hj
        · exact h.highest j hj hs
        · obtain rfl := List.mem_singleton.mp hj
          exact ⟨b, rfl, by omega⟩
  · rw [if_neg hp]
    refine ⟨h.selectable, fun j hj hs => ?_⟩
    rcases List.mem_append.mp hj with hj | hj
    · exact h.highest j hj hs
    · obtain rfl := List.mem_singleton.mp hj
      exact absurd hs hp

theorem best_highest : Best k (List.finRange nProc) k.highest := by
  suffices h : ∀ (l l₀ : List Slot) (best : Option Slot), Best k l₀ best →
      Best k (l₀ ++ l) (l.foldl k.better best) from h _ [] none ⟨by simp, by simp⟩
  intro l
  induction l with
  | nil =>
    intro l₀ best h
    rw [List.append_nil]
    exact h
  | cons p l ih =>
    intro l₀ best h
    have := ih _ _ (h.better p)
    rwa [List.append_assoc] at this

theorem roused_prioritise : Roused k e i (k.proc i) (k.prioritise.proc i) := by
  obtain ⟨n, hn⟩ := Kernel.prioritise_proc (k := k) (i := i)
  rw [hn]
  exact ⟨⟨rfl, rfl, rfl, rfl, rfl, rfl, rfl, rfl, .inl rfl, .inl rfl⟩, rfl, .inl rfl⟩

theorem roused_swtch {u : Kernel} (h : i ≠ c) : Roused k e i (u.proc i) ((u.swtch c).proc i) := by
  rw [Kernel.swtch]
  split
  · exact .of_eq rfl
  · exact .of_eq rfl
  · exact .of_eq (Kernel.modify_proc_of_ne h)
  · rw [Kernel.modify_proc_of_ne h]
    exact roused_schedReturn
  · exact roused_schedReturn
  · rw [Kernel.modify_proc_of_ne h]
    exact roused_schedReturn

/-- What `swtch` does to the process that runs from then on. -/
theorem swtch_self {u : Kernel} : ∃ n ch x, (u.swtch c).proc c =
    { u.proc c with contextSwitches := n, chan := ch, context := x } ∧
    ((x = .none ∨ x = .yield) ∧ (u.proc c).context ≠ .none ∧ (u.proc c).context ≠ .exit ∨
      x = (u.proc c).context ∧ ((u.proc c).context = .none ∨ (u.proc c).context = .exit)) := by
  obtain ⟨n, hn⟩ := Kernel.schedReturn_proc (k := u) (c := c) (i := c)
  rw [Kernel.swtch]
  split
  · rename_i hx
    exact ⟨_, _, _, rfl, .inr ⟨rfl, .inl hx⟩⟩
  · rename_i hx
    exact ⟨_, _, _, rfl, .inr ⟨rfl, .inr hx⟩⟩
  · rename_i hx
    rw [Kernel.modify_proc, hx]
    exact ⟨_, _, _, rfl, .inl ⟨.inl rfl, by simp, by simp⟩⟩
  · rename_i hx
    rw [Kernel.modify_proc, hn, hx]
    exact ⟨_, _, _, rfl, .inl ⟨.inl rfl, by simp, by simp⟩⟩
  · rename_i hx
    rw [hn, hx]
    exact ⟨n, (u.proc c).chan, .yield, by rw [← hx], .inl ⟨.inr rfl, by simp, by simp⟩⟩
  · rename_i hx
    rw [Kernel.modify_proc, hn, hx]
    exact ⟨_, _, _, rfl, .inl ⟨.inl rfl, by simp, by simp⟩⟩

theorem helper4_proc : (k.helper4 c).proc c = Kernel.pick k.ticks (k.proc c) := Kernel.modify_proc

theorem helper4_proc_of_ne (h : i ≠ c) : (k.helper4 c).proc i = k.proc i :=
  Kernel.modify_proc_of_ne h

theorem move_scheduler (hc : k.cur = none) :
    Move k .scheduler i (k.proc i) (k.scheduler.proc i) := by
  rw [Kernel.scheduler]
  cases hh : k.prioritise.highest with
  | none => exact .roused roused_prioritise
  | some p =>
    dsimp only
    by_cases hi : i = p
    · subst hi
      have hs := best_highest.selectable i hh
      obtain ⟨n, ch, x, hq, hx⟩ := swtch_self (c := i)
        (u := (k.prioritise.helper4 i).modify i (Kernel.setRunning k.prioritise.ticks))
      obtain ⟨m, hm⟩ := Kernel.prioritise_proc (k := k) (i := i)
      rw [Kernel.Selectable, hm] at hs
      rw [Kernel.modify_proc, helper4_proc, hm] at hq hx
      rw [hq]
      exact .dispatched rfl hc hh hs.1 hs.2 rfl rfl rfl rfl rfl rfl rfl rfl rfl rfl rfl hx
    · refine .roused (roused_prioritise.trans (Roused.trans (.of_eq ?_) (roused_swtch hi)))
      rw [Kernel.modify_proc_of_ne hi]
      exact helper4_proc_of_ne hi

theorem not_forks {a b c : Activity} (h : a ∈ [b, c]) (hb : ¬b.Forks) (hc : ¬c.Forks) :
    ¬a.Forks := by
  rcases List.mem_pair.mp h with rfl | rfl
  · exact hb
  · exact hc

theorem roused_trapEnd {page : Bool} {tf : Frame} :
    Roused k e i p (Kernel.trapEnd page p tf).1 := by
  rw [Kernel.trapEnd]
  split
  · rw [Kernel.handlePendingCustomSignal]
    split
    · exact ⟨⟨rfl, rfl, rfl, rfl, rfl, rfl, rfl, rfl, .inl rfl, .inl rfl⟩, rfl, .inl rfl⟩
    · exact .of_eq rfl
  · exact .of_eq rfl

theorem Roused.tf (h : Roused k e i p q) (tf : Frame) : Roused k e i p { q with tf } :=
  ⟨⟨h.pid, h.flag, h.enabled, h.creation, h.initial, h.cpu, h.wait, h.wait2, h.parent, h.activity⟩,
    h.context, h.state⟩

/-- What a step does to the process `i`. -/
theorem step_move (hk : k.Wf) (h : k.step e = some t) (i : Slot) :
    Move k e i (k.proc i) (t.proc i) := by
  obtain ⟨-, -, h⟩ := Kernel.step_some h
  cases e with
  | fork custom =>
    obtain ⟨c, hc, ha, -, rfl⟩ := Kernel.call_some h
    exact move_fork hk hc ha
  | forkFail =>
    obtain ⟨c, np, custom, hc, ha, rfl⟩ := Kernel.goOnFork_some h
    exact move_forkFail hk hc ha
  | forkCopy =>
    obtain ⟨c, np, custom, hc, ha, rfl⟩ := Kernel.goOnFork_some h
    exact move_forkCopy hk hc ha
  | forkFinish =>
    obtain ⟨c, np, custom, hc, ha, rfl⟩ := Kernel.goOnFork_some h
    exact move_forkFinish hk hc ha
  | exit =>
    obtain ⟨c, hc, ha, rfl⟩ := Kernel.goOn_some h
    by_cases hi : c = k.initproc
    · rw [Kernel.exit, if_pos hi]
      exact .roused (.of_eq rfl)
    · exact move_exit hc hi (not_forks ha id id)
  | wait =>
    obtain ⟨c, hc, ha, rfl⟩ := Kernel.goOn_some h
    refine move_wait hk hc (not_forks ha id id) ?_
    rcases List.mem_pair.mp ha with ha | ha <;> rw [ha] <;> simp
  | kill pid =>
    obtain ⟨c, -, -, -, rfl⟩ := Kernel.call_some h
    exact .roused roused_kill
  | schedulerStart =>
    obtain ⟨c, -, -, -, rfl⟩ := Kernel.call_some h
    show Move k .schedulerStart i (k.proc i) (Kernel.start (k.proc i))
    rw [Kernel.start]
    split
    · rename_i hs
      exact .started rfl hs.1 hs.2 rfl
    · exact .roused (.of_eq rfl)
  | exec eip esp =>
    obtain ⟨c, -, -, -, rfl⟩ := Kernel.call_some h
    exact .roused (roused_modify fun _ => (Roused.of_eq rfl).tf _)
  | signal handler =>
    obtain ⟨c, -, -, -, rfl⟩ := Kernel.call_some h
    exact .roused (roused_modify fun _ =>
      ⟨⟨rfl, rfl, rfl, rfl, rfl, rfl, rfl, rfl, .inl rfl, .inl rfl⟩, rfl, .inl rfl⟩)
  | sleep x =>
    obtain ⟨c, hc, ha, rfl⟩ := Kernel.goOn_some h
    exact move_sleep (.inr ⟨x, rfl⟩) hc (not_forks ha id id) (.of_eq rfl)
  | enter tf =>
    rw [Kernel.perform] at h
    split at h
    · obtain ⟨c, -, -, rfl⟩ := Kernel.goOn_some h
      exact .roused (roused_modify fun _ => (Roused.of_eq rfl).tf _)
    · cases h
  | trapEnd page kernel =>
    cases kernel with
    | none =>
      obtain ⟨c, -, -, rfl⟩ := Kernel.goOn_some h
      exact .roused (roused_modify fun _ => roused_trapEnd.tf _)
    | some tf =>
      rw [Kernel.perform] at h
      split at h
      · obtain ⟨c, -, rfl⟩ := Option.map_eq_some_iff.mp h
        exact .roused (roused_modify fun _ => roused_trapEnd)
      · cases h
  | fault low =>
    obtain ⟨c, -, h⟩ := Option.bind_eq_some_iff.mp h
    split at h
    · cases h
    · obtain rfl := Option.some.inj h
      exact .roused (roused_modify fun _ => (Roused.of_eq rfl).tf _)
  | wakeup x =>
    obtain rfl := Option.some.inj h
    exact .roused roused_wakeup1
  | ctrlB =>
    obtain rfl := Option.some.inj h
    exact .roused (.of_eq rfl)
  | ctrlC =>
    obtain rfl := Option.some.inj h
    exact .roused roused_killUserProcs
  | ctrlF =>
    obtain rfl := Option.some.inj h
    show Move k .ctrlF i (k.proc i) (Kernel.resume (k.proc i))
    rw [Kernel.resume]
    split
    · rename_i hs
      exact .roused ⟨⟨rfl, rfl, rfl, rfl, rfl, rfl, rfl, rfl, .inl rfl, .inl rfl⟩, rfl,
        .inr ⟨.inr hs, rfl⟩⟩
    · exact .roused (.of_eq rfl)
  | ctrlG =>
    obtain rfl := Option.some.inj h
    rw [Kernel.ctrlG]
    cases k.cur with
    | none => exact .roused (.of_eq rfl)
    | some c =>
      dsimp only
      split
      · exact .roused (roused_modify fun _ =>
          ⟨⟨rfl, rfl, rfl, rfl, rfl, rfl, rfl, rfl, .inl rfl, .inl rfl⟩, rfl, .inl rfl⟩)
      · exact .roused (.of_eq rfl)
  | timer user =>
    rw [Kernel.perform] at h
    split at h
    · obtain rfl := Option.some.inj h
      exact move_timer user hk
    · cases h
  | afterYield =>
    obtain ⟨c, hc, rfl⟩ := Option.map_eq_some_iff.mp h
    exact move_afterYield hc
  | scheduler =>
    rw [Kernel.perform] at h
    split at h
    · obtain rfl := Option.some.inj h
      exact move_scheduler ‹_›
    · cases h

end Xv6.Jobs
