import AdvancedXv6.Jobs.Wf

/-! The clock, and what a timer interrupt charges to a process. `last_ticks` lags behind `ticks` by
one, so that an interrupt charges the tick that ended with the interrupt before it. -/

namespace Xv6.Jobs
open Function

variable {k t u : Kernel} {e : Event} {i c : Slot} {p q : Proc} {n : Nat}

def Event.isTimer : Event → Bool
  | .timer _ => true
  | _ => false

/-- The number of timer interrupts of a run. -/
def timers (es : List Event) : Nat := es.countP Event.isTimer

theorem Event.quiet_or_wait_not_timer (h : e.Quiet ∨ e = .wait) : e.isTimer = false := by
  cases e with
  | timer user => rcases h with h | h <;> cases h
  | _ => rfl

/-- The clock has not gone round. -/
def Kernel.OnTime (k : Kernel) : Prop := k.ticks < 2 ^ 32 ∧ k.lastTicks = k.ticks - 1

theorem Kernel.OnTime.elapsed (h : k.OnTime) : k.elapsed = if k.ticks = 0 then 0 else 1 := by
  rw [Kernel.elapsed, h.2]
  split <;> omega

theorem Kernel.OnTime.elapsed_le (h : k.OnTime) : 0 ≤ k.elapsed ∧ k.elapsed ≤ 1 := by
  rw [h.elapsed]
  split <;> decide

theorem step_clock (hk : k.Wf) (ho : k.OnTime) (h : k.step e = some t)
    (hn : e.isTimer = true → k.ticks + 1 < 2 ^ 32) :
    t.OnTime ∧ t.ticks = k.ticks + if e.isTimer = true then 1 else 0 := by
  have same (he : e.isTimer = false) (ht : t.ticks = k.ticks) (hl : t.lastTicks = k.lastTicks) :
      t.OnTime ∧ t.ticks = k.ticks + if e.isTimer = true then 1 else 0 := by
    rw [Kernel.OnTime, ht, hl, he]
    exact ⟨ho, rfl⟩
  cases step_turn hk h with
  | stays he h => exact same (Event.quiet_or_wait_not_timer he) h.ticks h.lastTicks
  | asks he h | panics he h => exact same (by rw [he]; rfl) (by rw [h]) (by rw [h])
  | leaves c he _ h =>
    refine same ?_ h.ticks h.lastTicks
    obtain rfl | rfl | ⟨x, rfl⟩ := he <;> rfl
  | ticks user he h =>
    have ht : t.ticks = k.ticks + 1 := by
      rw [h.ticks]
      exact Nat.mod_eq_of_lt (hn (by rw [he]; rfl))
    have hl : t.lastTicks = k.ticks := by
      rw [h.lastTicks]
      show (if k.lastTicks < k.ticks then k.ticks else k.lastTicks) = k.ticks
      have := ho.2
      split <;> omega
    subst he
    refine ⟨⟨?_, by omega⟩, by rw [ht]; rfl⟩
    rw [ht]
    exact hn rfl
  | returns c he _ h =>
    rcases h with ⟨-, h, -⟩ | ⟨-, h, -⟩ <;>
      exact same (by rw [he]; rfl) h.ticks h.lastTicks
  | idles he _ _ h | dispatches c he _ _ h => exact same (by rw [he]; rfl) h.ticks h.lastTicks

/-! ### Charging -/

theorem timer_proc_of_ne {user : Bool} (hi : k.cur ≠ some i) :
    (k.timer user).proc i = k.tick.proc i := by
  have hcur : k.tick.cur = k.cur := updateTimes_cur
  rw [Kernel.timer, hcur]
  cases hc : k.cur with
  | none => rfl
  | some c =>
    have hic : i ≠ c := fun e => hi (e ▸ hc)
    dsimp only
    split
    · exact Kernel.modify_proc_of_ne hic
    · split
      · rw [Kernel.yield, Kernel.sched_proc, if_neg hic, Kernel.modify_proc_of_ne hic]
      · rfl

/-- What a step does to the counters of the process `i`. -/
inductive Charge (k : Kernel) (e : Event) (i : Slot) (p q : Proc) : Prop
  | created (c : Slot) (custom : Option (Int × Int)) (he : e = .forkFinish)
      (ha : (k.proc c).activity = .fork i custom true) (hq : q = Kernel.initChild k.ticks custom p)
  | none (hcreation : q.creationTime = p.creationTime) (hcpu : q.cpuTicks = p.cpuTicks)
      (hwait2 : q.waitTicks2 = p.waitTicks2)
      (hwait : q.waitTicks = p.waitTicks ∨ e = .scheduler ∧ q.waitTicks = 0)
      (he : e.isTimer = true → p.state ≠ .runnable ∧ p.state ≠ .running)
  | waited (he : e.isTimer = true) (hp : p.state = .runnable) (hq : q.state = .runnable)
      (hcreation : q.creationTime = p.creationTime) (hcpu : q.cpuTicks = p.cpuTicks)
      (hwait2 : q.waitTicks2 = int (p.waitTicks2 + k.elapsed))
      (hwait : q.waitTicks = int (p.waitTicks + k.elapsed))
  | ran (he : e.isTimer = true) (hp : p.state = .running)
      (hcreation : q.creationTime = p.creationTime)
      (hcpu : q.cpuTicks = int (p.cpuTicks + k.elapsed))
      (hwait2 : q.waitTicks2 = p.waitTicks2) (hwait : q.waitTicks = p.waitTicks)

theorem charge_timer (user : Bool) (hk : k.Wf) :
    Charge k (.timer user) i (k.proc i) ((k.timer user).proc i) := by
  by_cases hi : k.cur = some i
  · have hrun := (hk.running i).mpr hi
    have hq : ∃ b x s a, (k.timer user).proc i = { k.proc i with
        cpuTicks := int ((k.proc i).cpuTicks + k.elapsed)
        killed := b, context := x, state := s, activity := a } := by
      have hcur : k.tick.cur = k.cur := updateTimes_cur
      obtain ⟨b, hb⟩ := tick_proc_cur hk hi
      rw [Kernel.timer, hcur, hi]
      dsimp only
      split
      · rw [Kernel.modify_proc, hb]
        exact ⟨b, _, _, _, rfl⟩
      · rw [if_pos (by rw [hb]; exact hrun), Kernel.yield, Kernel.sched_proc, if_pos rfl,
          Kernel.modify_proc, hb]
        exact ⟨b, _, _, _, rfl⟩
    obtain ⟨b, x, s, a, hq⟩ := hq
    rw [hq]
    exact .ran rfl hrun rfl rfl rfl rfl
  · rw [timer_proc_of_ne hi]
    show Charge k (.timer user) i (k.proc i) (Kernel.rouse (some .ticks) (k.updateTimes.proc i))
    rw [updateTimes_proc_of_ne hi, Kernel.chargeWait]
    split
    · rename_i hs
      rw [Kernel.rouse, if_neg (by simp [Kernel.helper7, hs])]
      exact .waited rfl hs hs rfl rfl rfl rfl
    · rename_i hs
      have hr := (roused_rouse : Roused k (.timer user) i (k.proc i)
        (Kernel.rouse (some .ticks) (k.proc i)))
      refine .none hr.creation hr.cpu hr.wait2 (.inl hr.wait) fun _ => ⟨hs, fun h => ?_⟩
      exact hi ((hk.running i).mp h)

theorem Move.charge (h : Move k e i p q) (he : e.isTimer = false) : Charge k e i p q := by
  have hno {P : Prop} (h : e.isTimer = true) : P := absurd (he.symm.trans h) (by simp)
  cases h with
  | roused h => exact .none h.creation h.cpu h.wait2 (.inl h.wait) hno
  | allocated _ _ _ h | failed _ _ _ _ _ h | started _ _ _ h | reaped _ _ _ h =>
    rw [h]
    exact .none rfl rfl rfl (.inl rfl) hno
  | copied _ _ _ _ _ _ _ _ _ hcpu hwait hwait2 hcreation => exact .none hcreation hcpu hwait2 (.inl hwait) hno
  | finished c custom he _ ha hq => exact .created c custom he ha hq
  | slept _ _ h | exited _ _ h => exact .none h.creation h.cpu h.wait2 (.inl h.wait) hno
  | waited user _ h | ran user _ h =>
    subst h
    exact hno rfl
  | dispatched h _ _ _ _ _ hwait hcpu hwait2 hcreation => exact .none hcreation hcpu hwait2 (.inr ⟨h, hwait⟩) hno
  | suspended _ _ _ h => rcases h with ⟨-, h⟩ | ⟨-, h⟩ <;> rw [h] <;> exact .none rfl rfl rfl (.inl rfl) hno
  | gaveUp _ _ h => rcases h with h | h <;> rw [h] <;> exact .none rfl rfl rfl (.inl rfl) hno

theorem step_charge (hk : k.Wf) (h : k.step e = some t) (i : Slot) :
    Charge k e i (k.proc i) (t.proc i) := by
  cases he : e.isTimer with
  | false => exact (step_move hk h i).charge he
  | true =>
    cases e with
    | timer user =>
      obtain ⟨-, -, hperf⟩ := Kernel.step_some h
      rw [Kernel.perform] at hperf
      split at hperf
      · obtain rfl := Option.some.inj hperf
        exact charge_timer user hk
      · cases hperf
    | _ => cases he

/-! ### The counters of a process -/

/-- The tick at which the process was created. -/
def Proc.born (p : Proc) : Nat := (p.creationTime % 2 ^ 32).toNat

/-- What is so of the counters of a process that is less than `2 ^ 31` ticks old. -/
structure Proc.Fair (n : Nat) (p : Proc) : Prop where
  cpu : 0 ≤ p.cpuTicks
  wait : 0 ≤ p.waitTicks
  wait2 : p.waitTicks ≤ p.waitTicks2
  total : p.cpuTicks + p.waitTicks2 ≤ ((n - p.born : Nat) : Int)

theorem int_emod (x : Int) : int x % 2 ^ 32 = x % 2 ^ 32 := by
  unfold int
  exact Int.bmod_emod

theorem born_of_creation (hn : n < 2 ^ 32) (h : p.creationTime = int n) : p.born = n := by
  rw [Proc.born, h, int_emod]
  omega

theorem initChild_born (hn : n < 2 ^ 32) (custom : Option (Int × Int)) :
    (Kernel.initChild n custom p).born = n := by
  refine born_of_creation hn ?_
  cases custom <;> rfl

theorem fair_initChild (custom : Option (Int × Int)) : (Kernel.initChild n custom p).Fair n := by
  cases custom <;> exact ⟨Int.le_refl 0, Int.le_refl 0, Int.le_refl 0, by
    show (0 : Int) + 0 ≤ _
    omega⟩

/-- Every process that is not too old has fair counters. -/
def Kernel.Charged (k : Kernel) : Prop :=
  ∀ i, (k.proc i).born ≤ k.ticks ∧ (k.ticks - (k.proc i).born < 2 ^ 31 → (k.proc i).Fair k.ticks)

theorem Proc.Fair.charge (hk : k.OnTime) (hborn : p.born ≤ k.ticks)
    (hp : k.ticks - p.born < 2 ^ 31 → p.Fair k.ticks) (hn : n = k.ticks + if e.isTimer = true then 1 else 0)
    (h : Charge k e i p q) : q.born ≤ n ∧ (n - q.born < 2 ^ 31 → q.Fair n) := by
  have hd := hk.elapsed_le
  have same (hc : q.creationTime = p.creationTime) : q.born = p.born := by rw [Proc.born, hc]; rfl
  cases h with
  | created c custom he _ hq =>
    have : n = k.ticks := by
      rw [hn, he]
      rfl
    rw [hq, this, initChild_born hk.1]
    exact ⟨le_rfl, fun _ => fair_initChild custom⟩
  | none hc hcpu hwait2 hwait =>
    refine ⟨by rw [same hc]; split at hn <;> omega, fun hage => ?_⟩
    rw [same hc] at hage
    obtain ⟨h₁, h₂, h₃, h₄⟩ := hp (by split at hn <;> omega)
    have h₅ : k.ticks ≤ n := by split at hn <;> omega
    refine ⟨by rw [hcpu]; exact h₁, ?_, ?_, ?_⟩
    · rcases hwait with h | ⟨-, h⟩ <;> rw [h]
      exact h₂
    · rw [hwait2]
      rcases hwait with h | ⟨-, h⟩ <;> omega
    · rw [hcpu, hwait2, same hc]
      omega
  | waited he _ _ hc hcpu hwait2 hwait =>
    rw [if_pos he] at hn
    refine ⟨by rw [same hc]; omega, fun hage => ?_⟩
    rw [same hc] at hage
    obtain ⟨h₁, h₂, h₃, h₄⟩ := hp (by omega)
    rw [int_of_lt (by omega) (by omega)] at hwait2 hwait
    exact ⟨by omega, by omega, by omega, by rw [same hc]; omega⟩
  | ran he _ hc hcpu hwait2 hwait =>
    rw [if_pos he] at hn
    refine ⟨by rw [same hc]; omega, fun hage => ?_⟩
    rw [same hc] at hage
    obtain ⟨h₁, h₂, h₃, h₄⟩ := hp (by omega)
    rw [int_of_lt (by omega) (by omega)] at hcpu
    exact ⟨by omega, by omega, by omega, by rw [same hc]; omega⟩

/-! ### Runs -/

/-- Before a step of a run with at most `n` timer interrupts in all. -/
structure Early (n : Nat) (k : Kernel) (e : Event) : Prop where
  reachable : k.Reachable
  onTime : k.OnTime
  timer : k.ticks + (if e.isTimer = true then 1 else 0) ≤ n

theorem always_early {es : List Event} (hn : n < 2 ^ 32) (hk : k.Reachable) (ho : k.OnTime)
    (h : k.ticks + timers es ≤ n) : Run.Always Kernel.step (fun u e _ => Early n u e) k es := by
  induction es generalizing k with
  | nil => exact trivial
  | cons e es ih =>
    intro t ht
    rw [timers, List.countP_cons] at h
    have he : k.ticks + (if e.isTimer = true then 1 else 0) ≤ n := by omega
    obtain ⟨hot, hticks⟩ := step_clock (hk.wf (Kernel.step_some ht).1) ho ht fun h => by
      rw [if_pos h] at he
      omega
    exact ⟨⟨hk, ho, he⟩, ih (hk.next ht) hot (by rw [hticks, timers]; omega)⟩

/-- `ticks` counts the timer interrupts. -/
theorem run_clock {es : List Event} (hk : k.Reachable) (ho : k.OnTime)
    (hn : k.ticks + timers es < 2 ^ 32) (h : Run.exec Kernel.step k es = some t) :
    t.OnTime ∧ t.ticks = k.ticks + timers es := by
  induction es generalizing k with
  | nil => exact Option.some.inj h ▸ ⟨ho, rfl⟩
  | cons e es ih =>
    obtain ⟨u, hu, h⟩ := Run.exec_cons_some.mp h
    rw [timers, List.countP_cons] at hn ⊢
    obtain ⟨hou, hticks⟩ := step_clock (hk.wf (Kernel.step_some hu).1) ho hu fun h => by
      rw [if_pos h] at hn
      omega
    obtain ⟨hot, ht⟩ := ih (hk.next hu) hou (by rw [hticks, timers]; omega) h
    exact ⟨hot, by rw [ht, hticks, timers]; omega⟩

theorem Kernel.Charged.step (hn : n < 2 ^ 32) (hk : k.Charged) (he : Early n k e)
    (h : k.step e = some t) : t.Charged := by
  have hwf := he.reachable.wf (Kernel.step_some h).1
  obtain ⟨-, hticks⟩ := step_clock hwf he.onTime h fun h => by
    have := he.timer
    rw [if_pos h] at this
    omega
  exact fun i => Proc.Fair.charge he.onTime (hk i).1 (hk i).2 hticks (step_charge hwf h i)

theorem boot_onTime : Kernel.boot.OnTime := ⟨by decide, rfl⟩

theorem charged_boot : Kernel.boot.Charged := by
  intro i
  simp only [Kernel.boot]
  split <;> exact ⟨by decide, fun _ => ⟨by decide, by decide, by decide, by decide⟩⟩

theorem run_charged {es : List Event} (hn : timers es < 2 ^ 32)
    (h : Run.exec Kernel.step Kernel.boot es = some t) : t.Charged :=
  (always_early (n := timers es) hn (.refl _) boot_onTime (Nat.le_of_eq (Nat.zero_add _))).invariant
    (fun _ _ _ hI hD hs => Kernel.Charged.step hn hI hD hs) charged_boot h

end Xv6.Jobs
