import AdvancedXv6.Jobs.Signals
import AdvancedXv6.Jobs.Clock

/-! What a new process finds in its slot: which fields `fork` and `custom_fork` set, and which are left
over from the process that had the slot before. -/

namespace Xv6.Jobs
open Function

variable {k t u v : Kernel} {e : Event} {i j c s : Slot} {p q : Proc} {n : Int}
  {custom : Option (Int × Int)} {es : List Event}

/-- The handler, the pending signal and the saved frame. -/
def Proc.handling (p : Proc) : Nat × Bool × Option Frame := (p.customHandler, p.pendingCustom, p.tf1)

/-- What the scheduler goes by and what is counted. -/
def Proc.scheduling (p : Proc) : ProcState × (Nat × Int × Int) × (Int × Int × Int) ×
    (Int × Int × Int × Int × Int) × (Int × Int × Int) :=
  (p.state, (p.execTime, p.startLaterFlag, p.schedulingEnabled),
    (p.initialPriority, p.dynPriority, p.lastScheduled),
    (p.creationTime, p.finishTime, p.firstRunTime, p.rtime, p.contextSwitches),
    (p.cpuTicks, p.waitTicks, p.waitTicks2))

/-- Two processes that behave the same, as far as signals, kills and the scheduler go. -/
structure Alike (p q : Proc) : Prop where
  handling : p.handling = q.handling
  killed : p.killed = q.killed
  scheduling : p.scheduling = q.scheduling

/-- A kill request for the process with number `n`. -/
def Event.Hits (n : Int) : Event → Bool
  | .kill m => m = n
  | .ctrlC => 2 < n
  | _ => false

/-- `fork`, or `custom_fork` with its arguments, called in `k`, has made the process of slot `s` when it
returns in `t`. It takes the events `es` in between, in which the new process does not run yet. -/
structure Creates (k : Kernel) (custom : Option (Int × Int)) (es : List Event) (s : Slot) (t : Kernel) :
    Prop where
  slot : k.find (fun q => q.state = .unused) = some s
  run : ∃ u v c, k.step (.fork custom) = some u ∧ Run.exec Kernel.step u es = some v ∧
    v.cur = some c ∧ (v.proc c).activity = .fork s custom true ∧ v.step .forkFinish = some t ∧
    Run.Always Kernel.step (fun w _ _ => w.cur ≠ some s) u es
  pid : (t.proc s).pid = k.nextpid

/-! ### Signals -/

theorem handling_of_signals (h : q.signals = p.signals) : q.handling = p.handling := by
  simp only [Proc.signals, Prod.mk.injEq] at h
  simp only [Proc.handling, h]

theorem initChild_handling {n : Nat} : (Kernel.initChild n custom p).handling = p.handling := by
  cases custom <;> rfl

/-- Nobody else changes the signals of a process. -/
theorem step_handling (hk : k.Wf) (h : k.step e = some t) (hi : k.cur ≠ some i) :
    (t.proc i).handling = (k.proc i).handling := by
  cases step_signal hk h i with
  | same h => exact handling_of_signals h
  | copied _ _ _ _ _ _ htf1 hhandler hpending _ => rw [Proc.handling, htf1, hhandler, hpending, Proc.handling]
  | finished _ _ _ _ _ hq => rw [hq, initChild_handling]
  | entered _ _ hc | executed _ _ _ hc | registered _ _ hc | pressed _ hc => exact absurd hc hi
  | delivered _ _ _ hc | restored _ _ hc => exact absurd hc hi

/-! ### Kill requests -/

theorem kill_killed {pid : Int} (hd : ∀ j ≠ i, (u.proc j).pid ≠ (u.proc i).pid) :
    ((u.kill pid).proc i).killed = ((u.proc i).killed || decide (pid = (u.proc i).pid)) := by
  rw [Kernel.kill]
  cases hf : u.find fun q => q.pid = pid with
  | none =>
    have := Kernel.find_none hf i
    have hne : pid ≠ (u.proc i).pid := fun h => by simp [h] at this
    rw [decide_eq_false hne, Bool.or_false]
  | some j =>
    have hj : (u.proc j).pid = pid := by simpa using Kernel.find_some hf
    dsimp only
    by_cases hij : i = j
    · subst hij
      rw [Kernel.modify_proc, decide_eq_true hj.symm, Bool.or_true]
    · have := hd j (Ne.symm hij)
      rw [Kernel.modify_proc_of_ne hij, decide_eq_false (fun h => this (hj.trans h)), Bool.or_false]

theorem killUser_pid : ((u.killUser j).proc i).pid = (u.proc i).pid :=
  (roused_killUser (k := u) (e := .ctrlC)).pid

theorem killUser_killed (hd : ∀ j ≠ i, (u.proc j).pid ≠ (u.proc i).pid)
    (hs : (u.proc i).state ≠ .unused ∧ (u.proc i).state ≠ .zombie) :
    ((u.killUser j).proc i).killed =
      ((u.proc i).killed || decide (j = i ∧ 2 < (u.proc i).pid)) := by
  -- the state of slot `j` is set first
  have hpid (l : Slot) : ((u.modify j fun q =>
      { q with state := if q.state = .suspended then .runnable else q.state }).proc l).pid = (u.proc l).pid :=
    proj_modify (π := Proc.pid) fun _ => by rfl
  have hkilled : ((u.modify j fun q =>
      { q with state := if q.state = .suspended then .runnable else q.state }).proc i).killed =
        (u.proc i).killed := proj_modify (π := Proc.killed) fun _ => by rfl
  rw [Kernel.killUser]
  by_cases hij : j = i
  · subst hij
    by_cases hlt : 2 < (u.proc j).pid
    · rw [if_pos ⟨hlt, hs.1⟩]
      dsimp only
      have hz : ((u.modify j fun q =>
          { q with state := if q.state = .suspended then .runnable else q.state }).proc j).state ≠ .zombie := by
        rw [Kernel.modify_proc]
        dsimp only
        split
        · simp
        · exact hs.2
      rw [if_pos hz, kill_killed fun l hl => by rw [hpid, hpid]; exact hd l hl]
      rw [hkilled, decide_eq_true rfl, decide_eq_true ⟨rfl, hlt⟩]
    · rw [if_neg fun h => hlt h.1, decide_eq_false fun h => hlt h.2, Bool.or_false]
  · rw [decide_eq_false fun h => hij h.1, Bool.or_false]
    split
    · dsimp only
      split
      · rw [kill_killed fun l hl => by rw [hpid, hpid]; exact hd l hl, hkilled, hpid, hpid,
          decide_eq_false (hd j hij), Bool.or_false]
      · exact hkilled
    · rfl

theorem killUserProcs_killed (hd : ∀ j ≠ i, (u.proc j).pid ≠ (u.proc i).pid)
    (hs : (u.proc i).state ≠ .unused ∧ (u.proc i).state ≠ .zombie) :
    (u.killUserProcs.proc i).killed = ((u.proc i).killed || decide (2 < (u.proc i).pid)) := by
  suffices h : ∀ (l : List Slot) (u : Kernel), (∀ j ≠ i, (u.proc j).pid ≠ (u.proc i).pid) →
      (u.proc i).state ≠ .unused ∧ (u.proc i).state ≠ .zombie →
      ((l.foldl Kernel.killUser u).proc i).killed =
        ((u.proc i).killed || decide (i ∈ l ∧ 2 < (u.proc i).pid)) by
    rw [Kernel.killUserProcs, h _ u hd hs]
    simp only [List.mem_finRange, true_and]
  intro l
  induction l with
  | nil => simp
  | cons j l ih =>
    intro u hd hs
    have hst : ((u.killUser j).proc i).state ≠ .unused ∧ ((u.killUser j).proc i).state ≠ .zombie := by
      rcases (roused_killUser (k := u) (e := .ctrlC) (i := i) (j := j)).state with h | ⟨-, h⟩ <;> rw [h]
      · exact hs
      · exact ⟨by simp, by simp⟩
    rw [List.foldl_cons, ih _ (fun m hm => by rw [killUser_pid, killUser_pid]; exact hd m hm) hst,
      killUser_killed hd hs, killUser_pid, Bool.or_assoc, ← Bool.decide_or]
    congr 1
    rw [decide_eq_decide, List.mem_cons]
    constructor
    · rintro (⟨h, h'⟩ | ⟨h, h'⟩)
      · exact ⟨.inl h.symm, h'⟩
      · exact ⟨.inr h, h'⟩
    · rintro ⟨h | h, h'⟩
      · exact .inl ⟨h.symm, h'⟩
      · exact .inr ⟨h, h'⟩

/-- A process that is being made is killed by a request for it, and by nothing else. -/
theorem step_killed (hd : k.Distinct) (h : k.step e = some t) (hi : k.cur ≠ some i)
    (hp : (k.proc i).pid ≠ 0) (hs : (k.proc i).state ≠ .unused ∧ (k.proc i).state ≠ .zombie) :
    (t.proc i).killed = ((k.proc i).killed || e.Hits (k.proc i).pid) := by
  have hd' (j : Slot) (hj : j ≠ i) : (k.proc j).pid ≠ (k.proc i).pid := fun h => by
    have := hd j i hj h
    exact hp (h.symm.trans this)
  have same (hq : (t.proc i).killed = (k.proc i).killed) (he : e.Hits (k.proc i).pid = false) :
      (t.proc i).killed = ((k.proc i).killed || e.Hits (k.proc i).pid) := by
    rw [hq, he, Bool.or_false]
  have running {c : Slot} {f : Proc → Proc} (hc : k.cur = some c) :
      ((k.modify c f).proc i).killed = (k.proc i).killed := by
    rw [Kernel.modify_proc_of_ne fun h : i = c => hi (h ▸ hc)]
  obtain ⟨-, -, hperf⟩ := Kernel.step_some h
  cases e with
  | fork custom =>
    obtain ⟨c, -, -, -, rfl⟩ := Kernel.call_some hperf
    exact same (congrArg Prod.snd own_allocproc) rfl
  | forkFail =>
    obtain ⟨c, np, custom, -, -, rfl⟩ := Kernel.goOnFork_some hperf
    exact same ((proj_modify fun _ => by rfl).trans (proj_modify fun _ => by rfl)) rfl
  | forkCopy =>
    obtain ⟨c, np, custom, -, -, rfl⟩ := Kernel.goOnFork_some hperf
    refine same ((proj_modify fun _ => by rfl).trans (proj_modify fun _ => ?_)) rfl
    cases custom <;> rfl
  | forkFinish =>
    obtain ⟨c, np, custom, -, -, rfl⟩ := Kernel.goOnFork_some hperf
    refine same ((proj_modify fun _ => by rfl).trans (proj_modify fun _ => ?_)) rfl
    cases custom <;> rfl
  | exit =>
    obtain ⟨c, -, -, rfl⟩ := Kernel.goOn_some hperf
    exact same (congrArg Prod.snd own_exit) rfl
  | wait =>
    obtain ⟨c, hc, -, rfl⟩ := Kernel.goOn_some hperf
    refine same ?_ rfl
    rw [Kernel.wait]
    cases hf : k.find fun q => q.parent = some c ∧ q.state = .zombie with
    | some j =>
      have hj : (k.proc j).state = .zombie := by
        have := Kernel.find_some hf
        simp only [decide_eq_true_eq] at this
        exact this.2
      have hij : i ≠ j := fun h => hs.2 (h ▸ hj)
      exact (proj_modify fun _ => by rfl).trans (congrArg Proc.killed (Kernel.modify_proc_of_ne hij))
    | none =>
      dsimp only
      split
      · exact proj_modify fun _ => by rfl
      · exact (congrArg Prod.snd own_sleep).trans (proj_modify (π := Proc.killed) fun _ => by rfl)
  | kill pid =>
    obtain ⟨c, -, -, -, rfl⟩ := Kernel.call_some hperf
    exact kill_killed hd'
  | schedulerStart =>
    obtain ⟨c, -, -, -, rfl⟩ := Kernel.call_some hperf
    exact same (congrArg Prod.snd own_start) rfl
  | exec eip esp =>
    obtain ⟨c, hc, -, -, rfl⟩ := Kernel.call_some hperf
    exact same (running hc) rfl
  | signal handler =>
    obtain ⟨c, hc, -, -, rfl⟩ := Kernel.call_some hperf
    exact same (running hc) rfl
  | sleep x =>
    obtain ⟨c, -, -, rfl⟩ := Kernel.goOn_some hperf
    exact same (congrArg Prod.snd own_sleep) rfl
  | enter tf =>
    rw [Kernel.perform] at hperf
    split at hperf
    · obtain ⟨c, hc, -, rfl⟩ := Kernel.goOn_some hperf
      exact same (running hc) rfl
    · cases hperf
  | trapEnd page kernel =>
    cases kernel with
    | none =>
      obtain ⟨c, hc, -, rfl⟩ := Kernel.goOn_some hperf
      exact same (running hc) rfl
    | some tf =>
      rw [Kernel.perform] at hperf
      split at hperf
      · obtain ⟨c, hc, rfl⟩ := Option.map_eq_some_iff.mp hperf
        exact same (running hc) rfl
      · cases hperf
  | fault low =>
    obtain ⟨c, hc, hperf⟩ := Option.bind_eq_some_iff.mp hperf
    split at hperf
    · cases hperf
    · obtain rfl := Option.some.inj hperf
      exact same (running hc) rfl
  | wakeup x =>
    obtain rfl := Option.some.inj hperf
    exact same (congrArg Prod.snd own_rouse) rfl
  | ctrlB =>
    obtain rfl := Option.some.inj hperf
    exact same rfl rfl
  | ctrlC =>
    obtain rfl := Option.some.inj hperf
    exact killUserProcs_killed hd' hs
  | ctrlF =>
    obtain rfl := Option.some.inj hperf
    exact same (congrArg Prod.snd own_resume) rfl
  | ctrlG =>
    obtain rfl := Option.some.inj hperf
    refine same ?_ rfl
    rw [Kernel.ctrlG]
    cases hc : k.cur with
    | none => rfl
    | some c =>
      dsimp only
      split
      · exact running hc
      · rfl
  | timer user =>
    rw [Kernel.perform] at hperf
    split at hperf
    · obtain rfl := Option.some.inj hperf
      refine same ?_ rfl
      rw [timer_proc_of_ne hi]
      refine (congrArg Prod.snd own_rouse).trans ?_
      rw [updateTimes_proc_of_ne hi]
      exact congrArg Prod.snd own_chargeWait
    · cases hperf
  | afterYield =>
    obtain ⟨c, -, rfl⟩ := Option.map_eq_some_iff.mp hperf
    exact same (congrArg Prod.snd own_afterYield) rfl
  | scheduler =>
    rw [Kernel.perform] at hperf
    split at hperf
    · obtain rfl := Option.some.inj hperf
      exact same (congrArg Prod.snd own_scheduler) rfl
    · cases hperf

/-! ### What `fork` writes before it locks the table -/

/-- Between the copy and the end of `fork`, the new process is not one to start later. -/
def Kernel.Flagged (k : Kernel) : Prop := ∀ c s, (k.proc c).activity = .fork s none true →
  (k.proc s).startLaterFlag = 0 ∧ (k.proc s).schedulingEnabled = 0 ∧ (k.proc s).execTime = 2 ^ 32 - 1

theorem copied_back (hk : k.Wf) (h : k.step e = some t) (ha : (t.proc c).activity = .fork s custom true) :
    (k.proc c).activity = .fork s custom true ∧ ¬(k.cur = some c ∧ (e = .forkFail ∨ e = .forkFinish)) ∧
        (e = .forkCopy → k.cur ≠ some c) ∨
      e = .forkCopy ∧ k.cur = some c ∧ (k.proc c).activity = .fork s custom false := by
  by_cases he : e.Forks
  · obtain ⟨-, -, hperf⟩ := Kernel.step_some h
    cases e with
    | fork custom₀ =>
      obtain ⟨c₀, hc, -, -, rfl⟩ := Kernel.call_some hperf
      refine .inl ⟨?_, (by rintro ⟨-, he | he⟩ <;> cases he), by simp⟩
      rw [Kernel.allocproc] at ha
      cases hf : k.find fun q => q.state = .unused with
      | none =>
        rw [hf] at ha
        exact ha
      | some np₀ =>
        rw [hf] at ha
        dsimp only at ha
        by_cases hcc : c = c₀
        · subst hcc
          rw [Kernel.modify_proc] at ha
          cases ha
        · rw [Kernel.modify_proc_of_ne hcc, Kernel.modify_apply] at ha
          split at ha <;> exact ha
    | forkCopy =>
      obtain ⟨c₀, np₀, custom₀, hc, ha₀, rfl⟩ := Kernel.goOnFork_some hperf
      rw [Kernel.forkCopy] at ha
      by_cases hcc : c = c₀
      · subst hcc
        rw [Kernel.modify_proc] at ha
        cases ha
        exact .inr ⟨rfl, hc, ha₀⟩
      · have hcur (_ : Event.forkCopy = .forkCopy) : k.cur ≠ some c :=
          fun h => hcc (Option.some.inj (h.symm.trans hc))
        refine .inl ⟨?_, (by rintro ⟨-, he | he⟩ <;> cases he), hcur⟩
        rw [Kernel.modify_proc_of_ne hcc, Kernel.modify_apply] at ha
        split at ha
        · have hflags (p : Proc) : (Kernel.copyFlags custom₀ p).activity = p.activity := by
            cases custom₀ <;> rfl
          rw [hflags] at ha
          cases ha
        · exact ha
    | _ => exact he.elim
  · obtain ⟨hka, hend⟩ := step_activity hk he h ha
    exact .inl ⟨hka, hend, fun h => absurd (h ▸ trivial) he⟩

theorem Kernel.Flagged.step (hk : k.Wf) (hf : k.Flagged) (h : k.step e = some t) : t.Flagged := by
  intro c s ha
  rcases copied_back hk h ha with ⟨hka, hend, hcopy⟩ | ⟨rfl, hc, hka⟩
  · obtain ⟨hflag, henabled, hexec⟩ := hf c s hka
    have hfork := hk.fork c s none true hka
    -- no other process makes the one in slot `s`
    have other {c' : Slot} {custom' : Option (Int × Int)} {b : Bool} (hc : k.cur = some c')
        (ha' : (k.proc c').activity = .fork s custom' b) (he : e = .forkFail ∨ e = .forkFinish ∨ e = .forkCopy) :
        False := by
      obtain rfl := hfork.unique c' custom' b ha'
      rcases he with he | he | he
      · exact hend ⟨hc, .inl he⟩
      · exact hend ⟨hc, .inr he⟩
      · exact hcopy he hc
    have hmove : (t.proc s).startLaterFlag = 0 ∧ (t.proc s).schedulingEnabled = 0 := by
      cases step_move hk h s with
      | roused h => exact ⟨h.flag.trans hflag, h.enabled.trans henabled⟩
      | allocated _ _ hp _ => exact absurd hp hfork.used
      | failed _ _ he hc ha' _ => exact (other hc ha' (.inl he)).elim
      | copied _ _ he hc ha' _ => exact (other hc ha' (.inr (.inr he))).elim
      | finished _ _ he hc ha' _ => exact (other hc ha' (.inr (.inl he))).elim
      | started _ hno _ _ => exact absurd hflag hno
      | slept _ _ h | exited _ _ h => exact ⟨h.flag.trans hflag, h.enabled.trans henabled⟩
      | reaped _ _ _ hq | waited _ _ _ _ hq =>
        rw [hq]
        exact ⟨hflag, henabled⟩
      | ran _ _ _ _ _ hq => rcases hq with hq | hq <;> rw [hq] <;> exact ⟨hflag, henabled⟩
      | dispatched _ _ _ _ _ _ _ _ _ _ _ hf he => exact ⟨hf.trans hflag, he.trans henabled⟩
      | suspended _ _ _ hq => rcases hq with ⟨-, hq⟩ | ⟨-, hq⟩ <;> rw [hq] <;> exact ⟨hflag, henabled⟩
      | gaveUp _ _ hq => rcases hq with hq | hq <;> rw [hq] <;> exact ⟨hflag, henabled⟩
    refine ⟨hmove.1, hmove.2, ?_⟩
    cases step_signal hk h s with
    | same h => exact (congrArg (fun x => x.2.2.2.2) h).trans hexec
    | copied _ _ he hc ha' => exact (other hc ha' (.inr (.inr he))).elim
    | finished _ _ he hc ha' _ => exact (other hc ha' (.inr (.inl he))).elim
    | entered _ _ _ _ hq | executed _ _ _ _ hq | restored _ _ _ _ hq | delivered _ _ _ _ _ hq =>
      rw [hq]
      exact hexec
    | registered _ _ _ hq | pressed _ _ _ hq =>
      rw [hq]
      exact hexec
  · obtain ⟨-, -, hperf⟩ := Kernel.step_some h
    obtain ⟨c', s', custom', hc', ha', rfl⟩ := Kernel.goOnFork_some hperf
    obtain rfl := Option.some.inj (hc.symm.trans hc')
    cases hka.symm.trans ha'
    rw [Kernel.forkCopy, Kernel.modify_proc_of_ne (hk.fork c s none false hka).ne.symm, Kernel.modify_proc]
    exact ⟨rfl, rfl, rfl⟩

theorem Kernel.Reachable.flagged (h : k.Reachable) (hp : k.panicked = false) : k.Flagged :=
  (Run.Reaches.invariant (I := fun k => k.panicked = false → k.Wf ∧ k.Flagged) h
    (fun _ _ _ hI hs hp =>
      have h := hI (Kernel.step_some hs).1
      ⟨h.1.step hs hp, h.2.step h.1 hs⟩)
    (fun _ => ⟨wf_boot, fun c s (ha : (boot.proc c).activity = .fork s none true) =>
      absurd ((boot_proc c).1.symm.trans ha) (by simp)⟩) hp).2

/-! ### The whole of `fork` -/

/-- What a new process has for the scheduler. -/
def newScheduling (ticks : Nat) (custom : Option (Int × Int)) :
    ProcState × (Nat × Int × Int) × (Int × Int × Int) × (Int × Int × Int × Int × Int) ×
      (Int × Int × Int) :=
  (match custom with
    | none => .runnable
    | some (flag, _) => if flag ≠ 0 then .sleeping else .runnable,
    match custom with
    | none => (2 ^ 32 - 1, 0, 0)
    | some (flag, e) => ((e % 2 ^ 32).toNat, flag, 1),
    (initPriority, initPriority, int ticks), (int ticks, 0, -1, 0, 0), (0, 0, 0))

theorem initChild_scheduling {n : Nat} (h : custom = none →
    p.startLaterFlag = 0 ∧ p.schedulingEnabled = 0 ∧ p.execTime = 2 ^ 32 - 1) :
    (Kernel.initChild n custom p).scheduling = newScheduling n custom := by
  cases custom with
  | none =>
    obtain ⟨h₁, h₂, h₃⟩ := h rfl
    show (_, (p.execTime, p.startLaterFlag, p.schedulingEnabled), _) = _
    rw [h₁, h₂, h₃]
    rfl
  | some x => rfl

/-- A slot that `fork` takes gets a new number. -/
theorem fork_pid_ne (hm : Move k (.fork custom) i p q) (hp : p.state = .unused) (hq : q.state ≠ .unused)
    (hn : n < k.nextpid) : q.pid ≠ n := by
  cases hm with
  | roused h =>
    rcases h.state with hs | ⟨hs, -⟩
    · exact absurd (hs.trans hp) hq
    · rw [hp] at hs
      simp at hs
  | allocated _ _ _ h =>
    rw [h]
    exact Int.ne_of_gt hn
  | failed _ _ he | copied _ _ he | finished _ _ he | started he | exited he | reaped he => cases he
  | waited _ _ he | ran _ _ he | dispatched he | suspended he | gaveUp he => cases he
  | slept he => rcases he with he | ⟨x, he⟩ <;> cases he

/-- While `fork` goes on, nothing but kill requests reaches the new process. -/
theorem run_making {es : List Event} (hu : u.Reachable) (hn : n < u.nextpid) (hn0 : 0 < n)
    (hz : (u.proc s).state ≠ .zombie) (h : Run.exec Kernel.step u es = some v)
    (hrun : Run.Always Kernel.step (fun w _ _ => w.cur ≠ some s) u es) (hv : v.Making s)
    (hpid : (v.proc s).pid = n) (hvp : v.panicked = false) :
    u.Making s ∧ (u.proc s).pid = n ∧ (v.proc s).handling = (u.proc s).handling ∧
      (v.proc s).killed = ((u.proc s).killed || es.any (Event.Hits n)) := by
  induction es generalizing u with
  | nil =>
    obtain rfl := Option.some.inj h
    exact ⟨hv, hpid, rfl, by simp⟩
  | cons e es ih =>
    obtain ⟨w, hw, h⟩ := Run.exec_cons_some.mp h
    have hp := (Kernel.step_some hw).1
    have hwf := hu.wf hp
    have hcur := (hrun w hw).1
    have hm := step_move hwf hw s
    have hle := step_nextpid hwf hw
    have hzw : (w.proc s).state ≠ .zombie := fun hzw => hcur (hm.zombie hz hzw).1
    obtain ⟨hmk, hpw, hhandling, hkilled⟩ :=
      ih (hu.next hw) (by omega) hzw h (hrun w hw).2
    have hpu : (u.proc s).pid = n := by
      rcases hm.pid hwf with ⟨hq, -⟩ | ⟨-, -, hq⟩ | ⟨hq, -⟩ <;> omega
    have hmu : u.Making s := by
      rcases making_back hwf hw hmk with ⟨hmu, -⟩ | ⟨⟨custom, rfl⟩, hun⟩
      · exact hmu
      · have hwp : w.panicked = false := (same_of_quiet (show Event.Quiet (.fork custom) from trivial) hw).panicked.trans hp
        obtain ⟨c, custom', b, ha⟩ := hmk
        exact absurd hpw (fork_pid_ne hm hun (((hwf.step hw hwp).fork c s custom' b ha).used) hn)
    obtain ⟨c, custom, b, ha⟩ := hmu
    have hused := (hwf.fork c s custom b ha).used
    refine ⟨⟨c, custom, b, ha⟩, hpu, hhandling.trans (step_handling hwf hw hcur), ?_⟩
    rw [hkilled, step_killed (hu.distinct hp) hw hcur (by omega) ⟨hused, hz⟩, hpu, List.any_cons,
      Bool.or_assoc]

theorem initChild_killed {n : Nat} : (Kernel.initChild n custom p).killed = p.killed := by
  cases custom <;> rfl

/-- The new process has the handler, the pending signal, the saved frame and the kill requests of
whoever had the slot before; what the scheduler goes by is new. -/
theorem Creates.proc (hk : k.Reachable) (h : Creates k custom es s t) :
    (t.proc s).handling = (k.proc s).handling ∧
      (t.proc s).killed = ((k.proc s).killed || es.any (Event.Hits k.nextpid)) ∧
      (t.proc s).scheduling = newScheduling t.ticks custom := by
  obtain ⟨hslot, ⟨u, v, c, hu, hv, hc, ha, ht, hrun⟩, hpid⟩ := h
  have hp := (Kernel.step_some hu).1
  have hwf := hk.wf hp
  have hur : u.Reachable := hk.next hu
  have hvr : v.Reachable := hur.exec hv
  have hvp := (Kernel.step_some ht).1
  have hvwf := hvr.wf hvp
  have hun : (k.proc s).state = .unused := by simpa using Kernel.find_some hslot
  have hcur : k.cur ≠ some s := fun hc => by
    rw [(hwf.running s).mpr hc] at hun
    cases hun
  obtain ⟨halloc, hnext⟩ := fork_proc hwf hu hslot
  have hinit := forkFinish_proc hvwf ht hc ha
  have hticks : t.ticks = v.ticks := (same_of_quiet (show Event.Quiet .forkFinish from trivial) ht).ticks
  have hpv : (v.proc s).pid = k.nextpid := by
    rw [hinit, initChild_pid] at hpid
    exact hpid
  have hpos : 0 < k.nextpid := by
    have := (hk.numbered hp).next
    omega
  obtain ⟨-, -, hhandling, hkilled⟩ := run_making hur (by omega) hpos (by rw [halloc]; simp) hv
    hrun ⟨c, custom, true, ha⟩ hpv hvp
  refine ⟨?_, ?_, ?_⟩
  · rw [hinit, initChild_handling, hhandling]
    exact step_handling hwf hu hcur
  · rw [halloc] at hkilled
    rw [hinit, initChild_killed]
    exact hkilled
  · rw [hinit, hticks]
    exact initChild_scheduling fun h => hvr.flagged hvp c s (h ▸ ha)

/-- Whatever the processes were that had the slots before, and however the two calls are interrupted,
the two new processes are alike exactly if the slots hold the same handler, pending signal and saved
frame, and the same kill request unless there is a new one. -/
theorem creates_alike {k₁ k₂ t₁ t₂ : Kernel} {es₁ es₂ : List Event} {s₁ s₂ : Slot}
    (hk₁ : k₁.Reachable) (hk₂ : k₂.Reachable) (h₁ : Creates k₁ custom es₁ s₁ t₁)
    (h₂ : Creates k₂ custom es₂ s₂ t₂) (hticks : t₁.ticks = t₂.ticks)
    (hkill : es₁.any (Event.Hits k₁.nextpid) = es₂.any (Event.Hits k₂.nextpid)) :
    (Alike (t₁.proc s₁) (t₂.proc s₂) ↔ (k₁.proc s₁).handling = (k₂.proc s₂).handling ∧
      (es₁.any (Event.Hits k₁.nextpid) = false → (k₁.proc s₁).killed = (k₂.proc s₂).killed)) ∧
    ((t₁.proc s₁).handling = (0, false, none) ↔ (k₁.proc s₁).handling = (0, false, none)) := by
  obtain ⟨hh₁, hkl₁, hs₁⟩ := h₁.proc hk₁
  obtain ⟨hh₂, hkl₂, hs₂⟩ := h₂.proc hk₂
  refine ⟨⟨fun h => ⟨?_, fun hno => ?_⟩, fun h => ⟨?_, ?_, ?_⟩⟩, by rw [hh₁]⟩
  · rw [← hh₁, ← hh₂]
    exact h.handling
  · have := h.killed
    rw [hkl₁, hkl₂, ← hkill, hno, Bool.or_false, Bool.or_false] at this
    exact this
  · rw [hh₁, hh₂]
    exact h.1
  · rw [hkl₁, hkl₂, ← hkill]
    cases hno : es₁.any (Event.Hits k₁.nextpid) with
    | true => rw [Bool.or_true, Bool.or_true]
    | false => rw [h.2 hno]
  · rw [hs₁, hs₂, hticks]

/-! ### Two runs -/

/-- The first process has a child, waits until it has done `es` and has exited, and reaps it. -/
def reuse (es : List Event) : List Event :=
  [.scheduler, .fork none, .forkCopy, .forkFinish, .wait, .scheduler] ++ (es ++ [.exit, .scheduler, .wait])

/-- The first process makes a child in slot `s` after the events `es`. -/
theorem creates_of_run (es : List Event) {P : Kernel → Kernel → Prop} [∀ k t, Decidable (P k t)]
    (h : (Run.exec Kernel.step Kernel.boot es).any (fun k => (k.step (.fork none)).any fun u =>
      (u.step .forkCopy).any fun v => (v.step .forkFinish).any fun t =>
        k.find (fun q => q.state = .unused) = some s ∧ u.cur ≠ some s ∧ v.cur = some c ∧
          (v.proc c).activity = .fork s none true ∧ (t.proc s).pid = k.nextpid ∧ P k t) = true) :
    ∃ k t, Run.exec Kernel.step Kernel.boot es = some k ∧ Creates k none [.forkCopy] s t ∧ P k t := by
  simp only [Option.any_eq_true, decide_eq_true_eq] at h
  obtain ⟨k, hk, u, hu, v, hv, t, ht, hslot, hcur, hc, ha, hpid, hP⟩ := h
  exact ⟨k, t, hk, ⟨hslot, ⟨u, v, c, hu, (Run.exec_cons hv).trans rfl, hc, ha, ht,
    fun _ _ => ⟨hcur, trivial⟩⟩, hpid⟩, hP⟩

/-- A child that sleeps leaves nothing behind. -/
theorem creates_alike_sleeper : ∃ k₁ k₂ t₁ t₂ : Kernel,
    Run.exec Kernel.step Kernel.boot (reuse []) = some k₁ ∧
    Run.exec Kernel.step Kernel.boot (reuse [.sleep (.other 0), .wakeup (.other 0), .scheduler]) = some k₂ ∧
    Creates k₁ none [.forkCopy] ⟨1, by decide⟩ t₁ ∧ Creates k₂ none [.forkCopy] ⟨1, by decide⟩ t₂ ∧
    Alike (t₁.proc ⟨1, by decide⟩) (t₂.proc ⟨1, by decide⟩) := by
  obtain ⟨k₁, t₁, hk₁, h₁, hP₁⟩ := creates_of_run (reuse []) (s := ⟨1, by decide⟩)
    (c := ⟨0, by decide⟩) (P := fun k t => t.ticks = 0 ∧ k.nextpid = 3 ∧
      (k.proc ⟨1, by decide⟩).handling = (0, false, none) ∧ (k.proc ⟨1, by decide⟩).killed = false)
    (by decide +kernel)
  obtain ⟨k₂, t₂, hk₂, h₂, hP₂⟩ := creates_of_run
    (reuse [.sleep (.other 0), .wakeup (.other 0), .scheduler]) (s := ⟨1, by decide⟩)
    (c := ⟨0, by decide⟩) (P := fun k t => t.ticks = 0 ∧ k.nextpid = 3 ∧
      (k.proc ⟨1, by decide⟩).handling = (0, false, none) ∧ (k.proc ⟨1, by decide⟩).killed = false)
    (by decide +kernel)
  refine ⟨k₁, k₂, t₁, t₂, hk₁, hk₂, h₁, h₂, ?_⟩
  exact (creates_alike ⟨_, hk₁⟩ ⟨_, hk₂⟩ h₁ h₂ (hP₁.1.trans hP₂.1.symm) (by rw [hP₁.2.1, hP₂.2.1])).1.mpr
    ⟨hP₁.2.2.1.trans hP₂.2.2.1.symm, fun _ => hP₁.2.2.2.trans hP₂.2.2.2.symm⟩

/-- A child that registers a handler and has a signal pending when it exits leaves both to the next
process. -/
theorem handler_inherited : ∃ k₁ k₂ t₁ t₂ : Kernel,
    Run.exec Kernel.step Kernel.boot (reuse []) = some k₁ ∧
    Run.exec Kernel.step Kernel.boot (reuse [.signal 4096, .ctrlG]) = some k₂ ∧
    Creates k₁ none [.forkCopy] ⟨1, by decide⟩ t₁ ∧ Creates k₂ none [.forkCopy] ⟨1, by decide⟩ t₂ ∧
    t₁.ticks = t₂.ticks ∧ k₁.cur = k₂.cur ∧ k₁.nextpid = k₂.nextpid ∧
    (t₁.proc ⟨1, by decide⟩).handling = (0, false, none) ∧
    (t₂.proc ⟨1, by decide⟩).handling = (4096, true, none) ∧
    ¬Alike (t₁.proc ⟨1, by decide⟩) (t₂.proc ⟨1, by decide⟩) := by
  obtain ⟨k₁, t₁, hk₁, h₁, ht₁, hc₁, hn₁, hq₁⟩ := creates_of_run (reuse []) (s := ⟨1, by decide⟩)
    (c := ⟨0, by decide⟩) (P := fun k t => t.ticks = 0 ∧ k.cur = some ⟨0, by decide⟩ ∧ k.nextpid = 3 ∧
      (t.proc ⟨1, by decide⟩).handling = (0, false, none)) (by decide +kernel)
  obtain ⟨k₂, t₂, hk₂, h₂, ht₂, hc₂, hn₂, hq₂⟩ := creates_of_run (reuse [.signal 4096, .ctrlG])
    (s := ⟨1, by decide⟩) (c := ⟨0, by decide⟩) (P := fun k t => t.ticks = 0 ∧
      k.cur = some ⟨0, by decide⟩ ∧ k.nextpid = 3 ∧
      (t.proc ⟨1, by decide⟩).handling = (4096, true, none)) (by decide +kernel)
  refine ⟨k₁, k₂, t₁, t₂, hk₁, hk₂, h₁, h₂, ht₁.trans ht₂.symm, hc₁.trans hc₂.symm, hn₁.trans hn₂.symm,
    hq₁, hq₂, fun h => ?_⟩
  have := hq₁.symm.trans (h.handling.trans hq₂)
  cases this

end Xv6.Jobs
