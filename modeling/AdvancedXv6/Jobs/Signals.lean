import AdvancedXv6.Jobs.Lives

/-! What one step can do to the trap frame of a process, to its saved frame and to its signals. -/

namespace Xv6.Jobs
open Function

variable {k t u : Kernel} {e : Event} {i j c np : Slot} {p q : Proc} {n : Nat}
  {custom : Option (Int × Int)}

/-- `tf`, `tf1`, `custom_handler`, `pending_custom` and `exec_time` -/
def Proc.signals (p : Proc) : Frame × Option Frame × Nat × Bool × Nat :=
  (p.tf, p.tf1, p.customHandler, p.pendingCustom, p.execTime)

/-- The signal of the process can be delivered. -/
def Proc.Signalled (p : Proc) : Prop := p.pendingCustom ∧ p.customHandler ≠ 0 ∧ ¬p.killed

instance (p : Proc) : Decidable p.Signalled := inferInstanceAs (Decidable (_ ∧ _))

/-- These and `killed` -/
def Proc.own (p : Proc) : (Frame × Option Frame × Nat × Bool × Nat) × Bool := (p.signals, p.killed)

/-! ### The functions that leave them alone -/

section Modify
variable {α : Type} {π : Proc → α}

theorem proj_modify {f : Proc → Proc} (hf : ∀ p, π (f p) = π p) :
    π ((u.modify c f).proc i) = π (u.proc i) := by
  rw [Kernel.modify_apply]
  split
  · exact hf _
  · rfl

end Modify

theorem own_rouse {x : Option Chan} : (Kernel.rouse x p).own = p.own := by
  rw [Kernel.rouse]
  split <;> rfl

theorem own_sched {x : Context} : ((u.sched c x).proc i).own = (u.proc i).own :=
  proj_modify (π := Proc.own) (f := fun q => { q with context := x }) fun _ => rfl

theorem own_sleep {x : Chan} : ((u.sleep c x).proc i).own = (u.proc i).own := by
  rw [Kernel.sleep, own_sched]
  exact proj_modify fun _ => by rfl

theorem own_schedReturn : ((u.schedReturn c).proc i).own = (u.proc i).own := by
  obtain ⟨n, hn⟩ := Kernel.schedReturn_proc (k := u) (c := c) (i := i)
  rw [hn]
  rfl

theorem own_stamp : (Kernel.stamp n p).own = p.own := by
  rw [Kernel.stamp, Proc.own, Proc.own, Proc.signals, Proc.signals]

theorem own_passOn : ((u.passOn c).proc i).own = (u.proc i).own := by
  have hadopt : (Kernel.adopt c u.initproc (u.proc i)).own = (u.proc i).own := by
    rw [Kernel.adopt]
    split <;> rfl
  rw [Kernel.passOn]
  split
  · exact own_rouse.trans hadopt
  · exact hadopt

theorem own_exit : ((u.exit c).proc i).own = (u.proc i).own := by
  rw [Kernel.exit]
  split
  · rfl
  · dsimp only
    rw [own_sched, proj_modify (π := Proc.own) fun _ => by rfl, own_passOn]
    exact own_rouse.trans (proj_modify fun _ => own_stamp)

theorem own_allocproc : ((u.allocproc c custom).proc i).own = (u.proc i).own := by
  rw [Kernel.allocproc]
  cases u.find fun q => q.state = .unused with
  | none => rfl
  | some np =>
    refine (proj_modify fun _ => by rfl).trans ?_
    exact proj_modify (u := { u with nextpid := u.nextpid + 1 }) fun _ => by rfl

theorem own_afterYield : ((u.afterYield c).proc i).own = (u.proc i).own := by
  have hsuspend (p : Proc) : (Kernel.suspend p).own = p.own := by
    rw [Kernel.suspend]
    split <;> rfl
  have hwake (p : Proc) : (Kernel.wakeShell p).own = p.own := by
    rw [Kernel.wakeShell]
    split <;> rfl
  have hhelper5 (p : Proc) : (Kernel.helper5 p).own = p.own := by
    rw [Kernel.helper5]
    split <;> rfl
  rw [Kernel.afterYield]
  split
  · rw [Kernel.yield2, own_sched, proj_modify hhelper5]
    exact (hwake _).trans (hsuspend _)
  · exact proj_modify fun _ => by rfl

theorem own_scheduler : (u.scheduler.proc i).own = (u.proc i).own := by
  have hprio : (u.prioritise.proc i).own = (u.proc i).own := by
    obtain ⟨n, hn⟩ := Kernel.prioritise_proc (k := u) (i := i)
    rw [hn]
    rfl
  have hswtch (v : Kernel) (c : Slot) : ((v.swtch c).proc i).own = (v.proc i).own := by
    rw [Kernel.swtch]
    split
    · rfl
    · rfl
    · exact proj_modify fun _ => by rfl
    · exact (proj_modify fun _ => by rfl).trans own_schedReturn
    · exact own_schedReturn
    · exact (proj_modify fun _ => by rfl).trans own_schedReturn
  rw [Kernel.scheduler]
  cases u.prioritise.highest with
  | none => exact hprio
  | some c =>
    dsimp only
    rw [hswtch, proj_modify (π := Proc.own) fun _ => by rfl, Kernel.helper4]
    refine Eq.trans ?_ hprio
    refine proj_modify (u := u.prioritise) (f := Kernel.pick u.prioritise.ticks) fun p => ?_
    rw [Kernel.pick, Proc.own, Proc.own, Proc.signals, Proc.signals]

theorem own_start : (Kernel.start p).own = p.own := by
  rw [Kernel.start]
  split <;> rfl

theorem own_resume : (Kernel.resume p).own = p.own := by
  rw [Kernel.resume]
  split <;> rfl

theorem own_chargeWait {d : Int} : (Kernel.chargeWait d p).own = p.own := by
  rw [Kernel.chargeWait]
  split <;> rfl

theorem signals_of_own (h : q.own = p.own) : q.signals = p.signals := congrArg Prod.fst h

theorem signals_kill {pid : Int} : ((u.kill pid).proc i).signals = (u.proc i).signals := by
  rw [Kernel.kill]
  cases u.find fun q => q.pid = pid with
  | none => rfl
  | some j => exact proj_modify fun _ => by rfl

theorem signals_killUserProcs : (u.killUserProcs.proc i).signals = (u.proc i).signals := by
  rw [Kernel.killUserProcs]
  induction List.finRange nProc generalizing u with
  | nil => rfl
  | cons j l ih =>
    refine ih.trans ?_
    rw [Kernel.killUser]
    split
    · dsimp only
      split
      · exact signals_kill.trans (proj_modify fun _ => by rfl)
      · exact proj_modify fun _ => by rfl
    · rfl

theorem signals_wait : ((u.wait c).proc i).signals = (u.proc i).signals := by
  rw [Kernel.wait]
  cases u.find fun q => q.parent = some c ∧ q.state = .zombie with
  | some j => exact (proj_modify fun _ => by rfl).trans (proj_modify fun _ => by rfl)
  | none =>
    dsimp only
    split
    · exact proj_modify fun _ => by rfl
    · exact (signals_of_own own_sleep).trans (proj_modify fun _ => by rfl)

theorem signals_timer {user : Bool} : ((u.timer user).proc i).signals = (u.proc i).signals := by
  have hcpu (d : Int) (p : Proc) : (Kernel.chargeCpu d p).signals = p.signals := by
    rw [Kernel.chargeCpu]
    split
    · dsimp only
      split <;> rfl
    · rfl
  have htimes : (u.updateTimes.proc i).signals = (u.proc i).signals := by
    rw [Kernel.updateTimes]
    cases u.cur with
    | none => exact signals_of_own own_chargeWait
    | some c => exact (proj_modify (hcpu _)).trans (signals_of_own own_chargeWait)
  have htick : (u.tick.proc i).signals = (u.proc i).signals := (signals_of_own own_rouse).trans htimes
  rw [Kernel.timer]
  cases u.tick.cur with
  | none => exact htick
  | some c =>
    dsimp only
    split
    · exact (proj_modify fun _ => by rfl).trans htick
    · split
      · exact (signals_of_own own_sched).trans ((proj_modify fun _ => by rfl).trans htick)
      · exact htick

/-! ### One step -/

inductive Signal (k : Kernel) (e : Event) (i : Slot) (p q : Proc) : Prop
  | same (h : q.signals = p.signals) (hcopy : e = .forkCopy → ∀ c custom, k.cur = some c →
      (k.proc c).activity ≠ .fork i custom false) (he : k.cur = some i → (∀ low, e ≠ .fault low) ∧
      ∀ page kernel, e = .trapEnd page kernel → ¬p.Signalled)
  | copied (c : Slot) (custom : Option (Int × Int)) (he : e = .forkCopy) (hc : k.cur = some c)
      (ha : (k.proc c).activity = .fork i custom false) (htf : q.tf = { (k.proc c).tf with eax := 0 })
      (htf1 : q.tf1 = p.tf1) (hhandler : q.customHandler = p.customHandler)
      (hpending : q.pendingCustom = p.pendingCustom) (hexec : custom = none → q.execTime = 2 ^ 32 - 1)
  | finished (c : Slot) (custom : Option (Int × Int)) (he : e = .forkFinish) (hc : k.cur = some c)
      (ha : (k.proc c).activity = .fork i custom true) (hq : q = Kernel.initChild k.ticks custom p)
  | entered (tf : Frame) (he : e = .enter tf) (hc : k.cur = some i) (htf : tf.User)
      (hq : q = { p with tf })
  | executed (eip esp : Nat) (he : e = .exec eip esp) (hc : k.cur = some i)
      (hq : q = { p with tf := { p.tf with eip, esp } })
  | registered (handler : Nat) (he : e = .signal handler) (hc : k.cur = some i)
      (hq : q = { p with customHandler := handler })
  | pressed (he : e = .ctrlG) (hc : k.cur = some i) (hh : p.customHandler ≠ 0)
      (hq : q = { p with pendingCustom := true })
  | delivered (page : Bool) (kernel : Option Frame) (he : e = .trapEnd page kernel)
      (hc : k.cur = some i) (hs : p.Signalled) (hq : q = { p with
        pendingCustom := false
        tf1 := if p.tf1.isSome ∨ page then some (kernel.getD p.tf) else none
        prevEip := (kernel.getD p.tf).eip
        tf := if kernel = none then { p.tf with eip := p.customHandler } else p.tf })
  | restored (low : Frame) (he : e = .fault low) (hc : k.cur = some i) (hk : p.killed = false)
      (hq : q = { p with tf := p.tf1.getD low })

theorem Signal.of_modify {f : Proc → Proc} (hne : e ≠ .forkCopy ∧ (∀ low, e ≠ .fault low) ∧
    ∀ page kernel, e ≠ .trapEnd page kernel)
    (hf : i = c → Signal k e i (k.proc i) (f (k.proc i))) :
    Signal k e i (k.proc i) ((k.modify c f).proc i) := by
  rw [Kernel.modify_apply]
  split
  · exact hf ‹_›
  · exact .same rfl (fun he => absurd he hne.1)
      fun _ => ⟨hne.2.1, fun page kernel he => absurd he (hne.2.2 page kernel)⟩

theorem trapEnd_of_signalled {page : Bool} {tf : Frame} (h : p.Signalled) :
    Kernel.trapEnd page p tf = ({ p with
      pendingCustom := false
      tf1 := if p.tf1.isSome ∨ page then some tf else none
      prevEip := tf.eip }, { tf with eip := p.customHandler }) := by
  rw [Proc.Signalled] at h
  rw [Kernel.trapEnd, if_pos h, Kernel.handlePendingCustomSignal, if_pos ⟨h.1, h.2.1⟩]

theorem trapEnd_of_not {page : Bool} {tf : Frame} (h : ¬p.Signalled) :
    Kernel.trapEnd page p tf = (p, tf) := by
  rw [Proc.Signalled] at h
  rw [Kernel.trapEnd, if_neg h]

/-- What a step does to the frames and signals of the process `i`. -/
theorem step_signal (hk : k.Wf) (h : k.step e = some t) (i : Slot) :
    Signal k e i (k.proc i) (t.proc i) := by
  obtain ⟨-, -, hperf⟩ := Kernel.step_some h
  cases e with
  | forkCopy =>
    obtain ⟨c, np, custom, hc, ha, rfl⟩ := Kernel.goOnFork_some hperf
    have hne := (hk.fork c np custom false ha).ne
    rw [Kernel.forkCopy]
    by_cases hi : i = np
    · subst hi
      rw [Kernel.modify_proc_of_ne hne.symm, Kernel.modify_proc]
      refine .copied c custom rfl hc ha ?_ ?_ ?_ ?_ ?_
      all_goals cases custom with
        | none => first | rfl | exact fun _ => rfl
        | some x => first | rfl | simp
    · refine .same ((proj_modify fun _ => by rfl).trans ?_) (fun _ c' custom' hc' ha' => ?_)
        fun _ => ⟨by simp, by simp⟩
      · rw [Kernel.modify_proc_of_ne hi]
      · obtain rfl := Option.some.inj (hc.symm.trans hc')
        cases ha.symm.trans ha'
        exact hi rfl
  | forkFinish =>
    obtain ⟨c, np, custom, hc, ha, rfl⟩ := Kernel.goOnFork_some hperf
    have hne := (hk.fork c np custom true ha).ne
    rw [Kernel.forkFinish]
    by_cases hi : i = np
    · subst hi
      rw [Kernel.modify_proc_of_ne hne.symm, Kernel.modify_proc]
      exact .finished c custom rfl hc ha rfl
    · refine .same ((proj_modify fun _ => by rfl).trans ?_) (by simp) fun _ => ⟨by simp, by simp⟩
      rw [Kernel.modify_proc_of_ne hi]
  | exec eip esp =>
    obtain ⟨c, hc, -, -, rfl⟩ := Kernel.call_some hperf
    exact .of_modify ⟨by simp, by simp, by simp⟩ fun hi => .executed eip esp rfl (hi ▸ hc) rfl
  | signal handler =>
    obtain ⟨c, hc, -, -, rfl⟩ := Kernel.call_some hperf
    exact .of_modify ⟨by simp, by simp, by simp⟩ fun hi => .registered handler rfl (hi ▸ hc) rfl
  | enter tf =>
    rw [Kernel.perform] at hperf
    split at hperf
    · obtain ⟨c, hc, -, rfl⟩ := Kernel.goOn_some hperf
      exact .of_modify ⟨by simp, by simp, by simp⟩ fun hi => .entered tf rfl (hi ▸ hc) ‹_› rfl
    · cases hperf
  | trapEnd page kernel =>
    have hdeliver (c : Slot) (hc : k.cur = some c) (f : Proc → Proc)
        (hs : ∀ p : Proc, p.Signalled → f p = { p with
          pendingCustom := false
          tf1 := if p.tf1.isSome ∨ page then some (kernel.getD p.tf) else none
          prevEip := (kernel.getD p.tf).eip
          tf := if kernel = none then { p.tf with eip := p.customHandler } else p.tf })
        (hno : ∀ p : Proc, ¬p.Signalled → f p = p) :
        Signal k (.trapEnd page kernel) i (k.proc i) ((k.modify c f).proc i) := by
      rw [Kernel.modify_apply]
      split
      · rename_i hi
        by_cases h : (k.proc i).Signalled
        · exact .delivered page kernel rfl (hi ▸ hc) h (hs _ h)
        · rw [hno _ h]
          exact .same rfl (by simp) fun _ => ⟨by simp, fun _ _ _ => h⟩
      · rename_i hi
        exact .same rfl (by simp) fun hc' => absurd (Option.some.inj (hc'.symm.trans hc)) hi
    cases kernel with
    | none =>
      obtain ⟨c, hc, -, rfl⟩ := Kernel.goOn_some hperf
      refine hdeliver c hc _ (fun p hs => ?_) fun p hs => ?_
      · rw [Kernel.userTrapEnd, trapEnd_of_signalled hs]
        rfl
      · rw [Kernel.userTrapEnd, trapEnd_of_not hs]
    | some tf =>
      rw [Kernel.perform] at hperf
      split at hperf
      · obtain ⟨c, hc, rfl⟩ := Option.map_eq_some_iff.mp hperf
        refine hdeliver c hc _ (fun p hs => ?_) fun p hs => ?_
        · rw [trapEnd_of_signalled hs]
          rfl
        · rw [trapEnd_of_not hs]
      · cases hperf
  | fault low =>
    obtain ⟨c, hc, hperf⟩ := Option.bind_eq_some_iff.mp hperf
    split at hperf
    · cases hperf
    · rename_i hkill
      obtain rfl := Option.some.inj hperf
      rw [Kernel.modify_apply]
      split
      · rename_i hi
        subst hi
        exact .restored low rfl hc (Bool.not_eq_true _ ▸ hkill) rfl
      · rename_i hi
        exact .same rfl (by simp) fun hc' => absurd (Option.some.inj (hc'.symm.trans hc)) hi
  | ctrlG =>
    obtain rfl := Option.some.inj hperf
    rw [Kernel.ctrlG]
    cases hc : k.cur with
    | none => exact .same rfl (by simp) fun _ => ⟨by simp, by simp⟩
    | some c =>
      dsimp only
      split
      · exact .of_modify ⟨by simp, by simp, by simp⟩ fun hi => .pressed rfl (hi ▸ hc) (hi ▸ ‹_›) rfl
      · exact .same rfl (by simp) fun _ => ⟨by simp, by simp⟩
  | fork custom =>
    obtain ⟨c, -, -, -, rfl⟩ := Kernel.call_some hperf
    exact .same (signals_of_own own_allocproc) (by simp) fun _ => ⟨by simp, by simp⟩
  | forkFail =>
    obtain ⟨c, np, custom, -, -, rfl⟩ := Kernel.goOnFork_some hperf
    exact .same ((proj_modify fun _ => by rfl).trans (proj_modify fun _ => by rfl)) (by simp)
      fun _ => ⟨by simp, by simp⟩
  | exit =>
    obtain ⟨c, -, -, rfl⟩ := Kernel.goOn_some hperf
    exact .same (signals_of_own own_exit) (by simp) fun _ => ⟨by simp, by simp⟩
  | wait =>
    obtain ⟨c, -, -, rfl⟩ := Kernel.goOn_some hperf
    exact .same signals_wait (by simp) fun _ => ⟨by simp, by simp⟩
  | kill pid =>
    obtain ⟨c, -, -, -, rfl⟩ := Kernel.call_some hperf
    exact .same signals_kill (by simp) fun _ => ⟨by simp, by simp⟩
  | schedulerStart =>
    obtain ⟨c, -, -, -, rfl⟩ := Kernel.call_some hperf
    exact .same (signals_of_own own_start) (by simp) fun _ => ⟨by simp, by simp⟩
  | sleep x =>
    obtain ⟨c, -, -, rfl⟩ := Kernel.goOn_some hperf
    exact .same (signals_of_own own_sleep) (by simp) fun _ => ⟨by simp, by simp⟩
  | wakeup x =>
    obtain rfl := Option.some.inj hperf
    exact .same (signals_of_own own_rouse) (by simp) fun _ => ⟨by simp, by simp⟩
  | ctrlB =>
    obtain rfl := Option.some.inj hperf
    exact .same rfl (by simp) fun _ => ⟨by simp, by simp⟩
  | ctrlC =>
    obtain rfl := Option.some.inj hperf
    exact .same signals_killUserProcs (by simp) fun _ => ⟨by simp, by simp⟩
  | ctrlF =>
    obtain rfl := Option.some.inj hperf
    exact .same (signals_of_own own_resume) (by simp) fun _ => ⟨by simp, by simp⟩
  | timer user =>
    rw [Kernel.perform] at hperf
    split at hperf
    · obtain rfl := Option.some.inj hperf
      exact .same signals_timer (by simp) fun _ => ⟨by simp, by simp⟩
    · cases hperf
  | afterYield =>
    obtain ⟨c, -, rfl⟩ := Option.map_eq_some_iff.mp hperf
    exact .same (signals_of_own own_afterYield) (by simp) fun _ => ⟨by simp, by simp⟩
  | scheduler =>
    rw [Kernel.perform] at hperf
    split at hperf
    · obtain rfl := Option.some.inj hperf
      exact .same (signals_of_own own_scheduler) (by simp) fun _ => ⟨by simp, by simp⟩
    · cases hperf

end Xv6.Jobs
