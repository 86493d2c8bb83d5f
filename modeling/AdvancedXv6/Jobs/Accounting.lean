import AdvancedXv6.Jobs.Lives
import AdvancedXv6.Jobs.Clock

/-! What a process has used by the time it exits: every tick of its life is charged once. -/

namespace Xv6.Jobs
open Function

variable {k t u v : Kernel} {e : Event} {i c np : Slot} {p q : Proc} {n : Nat} {m : Int}

/-- The `TAT` that `exit` prints. -/
def Proc.turnaround (p : Proc) : Int := int (p.finishTime - p.creationTime)

/-- The step charges nothing to the process `i`, or, to one of its two totals, the tick before it,
which no other step charges. -/
def ChargesOnce (i : Slot) (u : Kernel) (e : Event) (v : Kernel) : Prop :=
  (v.proc i).cpuTicks = (u.proc i).cpuTicks ∧ (v.proc i).waitTicks2 = (u.proc i).waitTicks2 ∨
    e.isTimer = true ∧ u.ticks = u.lastTicks + 1 ∧ v.lastTicks = u.ticks ∧ v.ticks = u.ticks + 1 ∧
      ((v.proc i).cpuTicks = (u.proc i).cpuTicks + 1 ∧
          (v.proc i).waitTicks2 = (u.proc i).waitTicks2 ∨
        (v.proc i).cpuTicks = (u.proc i).cpuTicks ∧
          (v.proc i).waitTicks2 = (u.proc i).waitTicks2 + 1)

/-- The process runs, or could, when a timer interrupt comes. -/
def ReadyAtTimer (i : Slot) (u : Kernel) (e : Event) (_ : Kernel) : Prop :=
  e.isTimer = true → (u.proc i).state = .running ∨ (u.proc i).state = .runnable

theorem int_sub_int (x y : Int) : int (int x - int y) = int (x - y) := by
  unfold int
  rw [Int.sub_bmod_bmod, Int.bmod_sub_bmod]

/-- One charge at most, and one for sure if the process is ready. -/
theorem Charge.once (hk : k.OnTime) (hp : p.Fair k.ticks)
    (hage : k.ticks - p.born + (if e.isTimer = true then 1 else 0) < 2 ^ 31)
    (hm : ¬k.Making i) (h : Charge k e i p q) : q.creationTime = p.creationTime ∧
    (q.cpuTicks = p.cpuTicks ∧ q.waitTicks2 = p.waitTicks2 ∧
        (e.isTimer = true → k.ticks = 0 ∨ p.state ≠ .runnable ∧ p.state ≠ .running) ∨
      e.isTimer = true ∧ k.ticks ≠ 0 ∧
        (q.cpuTicks = p.cpuTicks + 1 ∧ q.waitTicks2 = p.waitTicks2 ∨
          q.cpuTicks = p.cpuTicks ∧ q.waitTicks2 = p.waitTicks2 + 1)) := by
  obtain ⟨h₁, h₂, h₃, h₄⟩ := hp
  have hd := hk.elapsed
  cases h with
  | created c custom _ ha _ => exact absurd ⟨c, custom, true, ha⟩ hm
  | none hc hcpu hwait2 _ he => exact ⟨hc, .inl ⟨hcpu, hwait2, fun h => .inr (he h)⟩⟩
  | waited he _ _ hc hcpu hwait2 _ =>
    rw [if_pos he] at hage
    refine ⟨hc, ?_⟩
    by_cases h0 : k.ticks = 0
    · rw [hd, if_pos h0, int_of_lt (by omega) (by omega), Int.add_zero] at hwait2
      exact .inl ⟨hcpu, hwait2, fun _ => .inl h0⟩
    · rw [hd, if_neg h0, int_of_lt (by omega) (by omega)] at hwait2
      exact .inr ⟨he, h0, .inr ⟨hcpu, hwait2⟩⟩
  | ran he _ hc hcpu hwait2 _ =>
    rw [if_pos he] at hage
    refine ⟨hc, ?_⟩
    by_cases h0 : k.ticks = 0
    · rw [hd, if_pos h0, int_of_lt (by omega) (by omega), Int.add_zero] at hcpu
      exact .inl ⟨hcpu, hwait2, fun _ => .inl h0⟩
    · rw [hd, if_neg h0, int_of_lt (by omega) (by omega)] at hcpu
      exact .inr ⟨he, h0, .inl ⟨hcpu, hwait2⟩⟩

/-- The slot `i` was given to the process with number `m` at tick `n`. -/
structure Since (n : Nat) (i : Slot) (m : Int) (u : Kernel) : Prop where
  charged : u.Charged
  lives : Lives i m u
  creation : (u.proc i).pid = m → (u.proc i).creationTime = int n

theorem Since.step {b : Nat} (hn : n < 2 ^ 32) (hb : b < 2 ^ 31) (hbn : n + b < 2 ^ 32) (hm : 0 < m)
    (hs : Since n i m u) (he : Early (n + b) u e) (h : u.step e = some v) : Since n i m v ∧
      ((v.proc i).pid = m → (u.proc i).pid = m ∧ ChargesOnce i u e v ∧
        (ReadyAtTimer i u e v → 1 ≤ n → (v.proc i).cpuTicks + (v.proc i).waitTicks2 =
          (u.proc i).cpuTicks + (u.proc i).waitTicks2 + (v.ticks - u.ticks))) := by
  have hwf := he.reachable.wf (Kernel.step_some h).1
  have hle := he.timer
  obtain ⟨hov, hticks⟩ := step_clock hwf he.onTime h fun h => by
    rw [if_pos h] at hle
    omega
  obtain ⟨hl, hold⟩ := hs.lives.step hwf h hm
  have hborn (hu : (u.proc i).pid = m) : n ≤ u.ticks := by
    rw [← born_of_creation hn (hs.creation hu)]
    exact (hs.charged i).1
  have hstep (hv : (v.proc i).pid = m) := by
    have hu := hold hv
    have hage : u.ticks - (u.proc i).born + (if e.isTimer = true then 1 else 0) < 2 ^ 31 := by
      rw [born_of_creation hn (hs.creation hu)]
      have := hborn hu
      omega
    exact (step_charge hwf h i).once he.onTime ((hs.charged i).2 (by omega)) hage (hs.lives.made hu).1
  refine ⟨⟨hs.charged.step hbn he h, hl, fun hv => (hstep hv).1.trans (hs.creation (hold hv))⟩,
    fun hv => ⟨hold hv, ?_, fun hr h1 => ?_⟩⟩
  · rcases (hstep hv).2 with ⟨hcpu, hwait, -⟩ | ⟨ht, h0, hch⟩
    · exact .inl ⟨hcpu, hwait⟩
    · have := he.onTime.2
      have := hov.2
      rw [if_pos ht] at hticks
      exact .inr ⟨ht, by omega, by omega, hticks, hch⟩
  · have := hborn (hold hv)
    rcases (hstep hv).2 with ⟨hcpu, hwait, hno⟩ | ⟨ht, -, hch⟩
    · have ht : e.isTimer = false := by
        by_contra ht
        rw [Bool.not_eq_false] at ht
        rcases hno ht with h0 | hs
        · omega
        · rcases hr ht with h | h
          · exact hs.2 h
          · exact hs.1 h
      rw [hcpu, hwait, hticks, ht]
      simp
    · rw [if_pos ht] at hticks
      omega

theorem step_exit (hk : k.Wf) (hc : k.cur = some c) (hi : c ≠ k.initproc) (h : k.step .exit = some t) :
    (t.proc c).creationTime = (k.proc c).creationTime ∧ (t.proc c).cpuTicks = (k.proc c).cpuTicks ∧
      (t.proc c).waitTicks2 = (k.proc c).waitTicks2 ∧ (t.proc c).finishTime = int k.ticks := by
  obtain ⟨-, -, hperf⟩ := Kernel.step_some h
  obtain ⟨c', hc', ha, rfl⟩ := Kernel.goOn_some hperf
  obtain rfl := Option.some.inj (hc.symm.trans hc')
  have hrun := (hk.running c).mpr hc
  have hs : ((k.exit c).proc c).state = .zombie := by
    rw [Kernel.exit, if_neg hi, Kernel.sched_proc, if_pos rfl]
    rw [Kernel.modify_proc]
  have hm := move_exit (i := c) hc hi (not_forks ha id id)
  generalize (k.exit c).proc c = q at hs hm ⊢
  cases hm with
  | roused h =>
    rcases h.state with h | ⟨-, h⟩
    · cases hs.symm.trans (h.trans hrun)
    · cases hs.symm.trans h
  | exited _ _ h _ _ hf => exact ⟨h.creation, h.cpu, h.wait2, hf⟩
  | reaped he | waited _ _ he | ran _ _ he | dispatched he | suspended he | gaveUp he => cases he
  | allocated _ he | failed _ _ he | copied _ _ he | finished _ _ he | started he => cases he
  | slept he => rcases he with he | ⟨x, he⟩ <;> cases he

/-- A process just created has been charged nothing. -/
theorem Kernel.Makes.since {es : List Event} (h₁ : Run.exec Kernel.step Kernel.boot es = some k)
    (hn : timers es < 2 ^ 32) (h : k.Makes t np) :
    t.OnTime ∧ t.ticks = timers es ∧ 0 < (t.proc np).pid ∧
      Since (timers es) np (t.proc np).pid t ∧ (t.proc np).cpuTicks + (t.proc np).waitTicks2 = 0 := by
  have hk : k.Reachable := ⟨es, h₁⟩
  have hwf := hk.wf (Kernel.step_some h.1).1
  obtain ⟨hok, hticks⟩ := run_clock (.refl _) boot_onTime ((Nat.zero_add _).trans_lt hn) h₁
  rw [show Kernel.boot.ticks = 0 from rfl, Nat.zero_add] at hticks
  obtain ⟨hot, ht⟩ := step_clock hwf hok h.1 (by rintro ⟨⟩)
  have ht : t.ticks = timers es := ht.trans hticks
  have hcharged : t.Charged := (run_charged hn h₁).step hn
    ⟨hk, hok, by rw [hticks]; exact Nat.le_refl _⟩ h.1
  obtain ⟨hpos, hlives⟩ := h.lives hk
  obtain ⟨custom, hq⟩ := h.proc hwf
  refine ⟨hot, ht, hpos, ⟨hcharged, hlives, fun _ => ?_⟩, ?_⟩ <;> rw [hq]
  · rw [← hticks]
    cases custom <;> rfl
  · cases custom <;> rfl

/-- At its exit a process has been charged its turnaround time at most, and exactly that if it was
created after the first timer interrupt and was always ready at the later ones. No tick is charged
twice. -/
theorem exit_accounts {k₀ t₀ k t : Kernel} {np : Slot} {es₁ es₂ : List Event}
    (h₁ : Run.exec Kernel.step Kernel.boot es₁ = some k₀) (h₀ : k₀.Makes t₀ np)
    (h₂ : Run.exec Kernel.step t₀ es₂ = some k) (hpid : (k.proc np).pid = (t₀.proc np).pid)
    (hc : k.cur = some np) (h : k.step .exit = some t)
    (hn : timers es₁ + timers es₂ < 2 ^ 32) (hage : timers es₂ < 2 ^ 31) :
    (t.proc np).cpuTicks + (t.proc np).waitTicks2 ≤ (t.proc np).turnaround ∧
    (1 ≤ timers es₁ → Run.Always Kernel.step (ReadyAtTimer np) t₀ es₂ →
      (t.proc np).cpuTicks + (t.proc np).waitTicks2 = (t.proc np).turnaround) ∧
    Run.Always Kernel.step
      (fun u e v => (v.proc np).pid = (t₀.proc np).pid → ChargesOnce np u e v) t₀ es₂ := by
  have hk₀ : k₀.Reachable := ⟨es₁, h₁⟩
  have ht₀ : t₀.Reachable := hk₀.next h₀.1
  have hk : k.Reachable := ht₀.exec h₂
  have hn₁ : timers es₁ < 2 ^ 32 := by omega
  obtain ⟨hot₀, hticks₀, hpos, hsince₀, hzero⟩ := h₀.since h₁ hn₁
  have hearly := always_early (n := timers es₁ + timers es₂) hn ht₀ hot₀ (by rw [hticks₀])
  have hstep {u v : Kernel} {e : Event} (hu : Since (timers es₁) np (t₀.proc np).pid u)
      (he : Early (timers es₁ + timers es₂) u e) (hv : u.step e = some v) :=
    hu.step hn₁ hage hn hpos he hv
  have hsince := hearly.invariant (fun _ _ _ hu he hv => (hstep hu he hv).1) hsince₀ h₂
  have hticks := (run_clock ht₀ hot₀ (by omega) h₂).2
  have hne : np ≠ k.initproc := by
    have hmade := (hk₀.initLives (Kernel.step_some h₀.1).1).made
    obtain ⟨-, c, custom, -, ha⟩ := h₀
    rintro rfl
    rw [hk.initproc, ← hk₀.initproc] at ha
    exact hmade ⟨c, custom, true, ha⟩
  obtain ⟨hcreation, hcpu, hwait, hfinish⟩ := step_exit (hk.wf (Kernel.step_some h).1) hc hne h
  have hturn : (t.proc np).turnaround = timers es₂ := by
    rw [Proc.turnaround, hcreation, hfinish, hsince.creation hpid, int_sub_int,
      int_of_lt (by omega) (by omega)]
    omega
  refine ⟨?_, fun h1 hready => ?_, ?_⟩
  · have hborn := born_of_creation hn₁ (hsince.creation hpid)
    have := ((hsince.charged np).2 (by omega)).total
    rw [hcpu, hwait, hturn]
    omega
  · have heq := (hearly.and hready).invariant
      (I := fun u => Since (timers es₁) np (t₀.proc np).pid u ∧ ((u.proc np).pid = (t₀.proc np).pid →
        (u.proc np).cpuTicks + (u.proc np).waitTicks2 = u.ticks - timers es₁))
      (fun u e v hu hD hv => by
        obtain ⟨hv', hcharge⟩ := hstep hu.1 hD.1 hv
        refine ⟨hv', fun hp => ?_⟩
        obtain ⟨hup, -, hsum⟩ := hcharge hp
        have := hu.2 hup
        have := hsum hD.2 h1
        omega) ⟨hsince₀, fun _ => by omega⟩ h₂
    have := heq.2 hpid
    rw [hcpu, hwait, hturn]
    omega
  · exact Run.Always.of_invariant (D := fun u e _ => Early (timers es₁ + timers es₂) u e)
      (fun u e v hu he hv => ⟨(hstep hu he hv).1, fun hp => ((hstep hu he hv).2 hp).2.1⟩) hsince₀ hearly

/-- The first process creates a child after the first timer interrupt. -/
def forkAfterTick : List Event := [.scheduler, .timer false, .scheduler, .afterYield, .fork none, .forkCopy]

/-- The child runs while the timer interrupts once. -/
def runOneTick : List Event := [.wait, .scheduler, .timer false, .scheduler, .afterYield]

theorem exit_accounts_tick : ∃ k₀ t₀ k t : Kernel,
    Run.exec Kernel.step Kernel.boot forkAfterTick = some k₀ ∧ k₀.Makes t₀ ⟨1, by decide⟩ ∧
    Run.exec Kernel.step t₀ runOneTick = some k ∧ k.step .exit = some t ∧
    (t.proc ⟨1, by decide⟩).cpuTicks + (t.proc ⟨1, by decide⟩).waitTicks2 ≤
      (t.proc ⟨1, by decide⟩).turnaround := by
  have h : (Run.exec Kernel.step Kernel.boot forkAfterTick).any (fun k₀ =>
      (k₀.step .forkFinish).any fun t₀ => (Run.exec Kernel.step t₀ runOneTick).any fun k =>
        (k.step .exit).any fun _ => k₀.cur = some ⟨0, by decide⟩ ∧
          (k₀.proc ⟨0, by decide⟩).activity = .fork ⟨1, by decide⟩ none true ∧
          (k.proc ⟨1, by decide⟩).pid = (t₀.proc ⟨1, by decide⟩).pid ∧
          k.cur = some ⟨1, by decide⟩) = true := by decide +kernel
  simp only [Option.any_eq_true, decide_eq_true_eq] at h
  obtain ⟨k₀, h₁, t₀, h₀, k, h₂, t, h, hc₀, ha, hpid, hc⟩ := h
  have hmakes : k₀.Makes t₀ ⟨1, by decide⟩ := ⟨h₀, _, none, hc₀, ha⟩
  exact ⟨k₀, t₀, k, t, h₁, hmakes, h₂, h,
    (exit_accounts h₁ hmakes h₂ hpid hc h (by decide) (by decide)).1⟩

/-! ### A long life -/

/-- Nobody runs, could run or waits for a tick. -/
structure Kernel.Idle (k : Kernel) : Prop where
  cur : k.cur = none
  panicked : k.panicked = false
  state : ∀ i, (k.proc i).state ≠ .runnable ∧ ¬((k.proc i).state = .sleeping ∧ (k.proc i).chan = some .ticks)

theorem Kernel.Idle.timer (hk : k.Idle) (hn : n + 1 < 2 ^ 32) :
    step { k with ticks := n, lastTicks := n - 1 } (.timer false) =
      some { k with ticks := n + 1, lastTicks := n } := by
  obtain ⟨hc, hp, hs⟩ := hk
  have hproc (i : Slot) (d : Int) : rouse (some .ticks) (chargeWait d (k.proc i)) = k.proc i := by
    rw [chargeWait, if_neg (hs i).1, rouse, if_neg (hs i).2]
  obtain ⟨proc, cur, nextpid, initproc, ticks, lastTicks, yieldOnTimer, prevProc, panicked⟩ := k
  subst hc hp
  have hlast : (if n - 1 < n then n else n - 1) = n := by split <;> omega
  show some (Kernel.mk (fun i => rouse (some .ticks) (chargeWait _ (proc i))) none nextpid initproc
    ((n + 1) % 2 ^ 32) (if n - 1 < n then n else n - 1) yieldOnTimer prevProc false) = _
  rw [funext fun i => hproc i _, hlast, Nat.mod_eq_of_lt hn]

/-- Nothing happens but the clock. -/
theorem Kernel.Idle.exec (hk : k.Idle) (m n : Nat) (hn : m + n < 2 ^ 32) :
    Run.exec step { k with ticks := m, lastTicks := m - 1 } (List.replicate n (.timer false)) =
      some { k with ticks := m + n, lastTicks := m + n - 1 } := by
  induction n generalizing m with
  | zero => rfl
  | succ n ih =>
    rw [List.replicate_succ, Run.exec_cons (hk.timer (by omega))]
    rw [show m + (n + 1) = m + 1 + n by omega]
    exact ih (m + 1) (by omega)

/-- The child of the first process sleeps until it is woken up. -/
def nap : List Event := [.wait, .scheduler, .sleep (.other 0)]

/-- A child sleeps for `2 ^ 31` ticks and exits. -/
theorem exit_accounts_wraps : ∃ (es₁ es₂ : List Event) (k₀ t₀ k t : Kernel) (np : Slot),
    Run.exec Kernel.step Kernel.boot es₁ = some k₀ ∧ k₀.Makes t₀ np ∧
    Run.exec Kernel.step t₀ es₂ = some k ∧ (k.proc np).pid = (t₀.proc np).pid ∧ k.cur = some np ∧
    k.step .exit = some t ∧ timers es₂ = 2 ^ 31 ∧
    ¬(t.proc np).cpuTicks + (t.proc np).waitTicks2 ≤ (t.proc np).turnaround := by
  have h : (Run.exec Kernel.step Kernel.boot [.scheduler, .fork none, .forkCopy]).any (fun k₀ =>
      (k₀.step .forkFinish).any fun t₀ => (Run.exec Kernel.step t₀ nap).any fun u =>
        (Run.exec Kernel.step { u with ticks := 0 + 2 ^ 31, lastTicks := 0 + 2 ^ 31 - 1 }
          [.wakeup (.other 0), .scheduler]).any fun k => (k.step .exit).any fun t =>
          (k₀.cur = some ⟨0, by decide⟩ ∧
            (k₀.proc ⟨0, by decide⟩).activity = .fork ⟨1, by decide⟩ none true) ∧
          (u.cur = none ∧ u.panicked = false ∧ u.ticks = 0 ∧ u.lastTicks = 0 ∧
            ∀ i, (u.proc i).state ≠ .runnable ∧
              ¬((u.proc i).state = .sleeping ∧ (u.proc i).chan = some .ticks)) ∧
          (k.proc ⟨1, by decide⟩).pid = (t₀.proc ⟨1, by decide⟩).pid ∧ k.cur = some ⟨1, by decide⟩ ∧
          ¬(t.proc ⟨1, by decide⟩).cpuTicks + (t.proc ⟨1, by decide⟩).waitTicks2 ≤
            (t.proc ⟨1, by decide⟩).turnaround) = true := by decide +kernel
  simp only [Option.any_eq_true, decide_eq_true_eq] at h
  obtain ⟨k₀, h₁, t₀, h₀, u, hu, k, hk, t, h, ⟨hc₀, ha⟩, ⟨hcur, hp, ht, hl, hs⟩, hpid, hc, hlt⟩ := h
  have hidle : u.Idle := ⟨hcur, hp, hs⟩
  have hsleep := hidle.exec 0 (2 ^ 31) (by decide)
  have hzero : { u with ticks := 0, lastTicks := 0 - 1 } = u := by
    cases u
    dsimp only at ht hl
    rw [ht, hl]
  rw [hzero] at hsleep
  refine ⟨_, nap ++ (List.replicate (2 ^ 31) (.timer false) ++ [.wakeup (.other 0), .scheduler]),
    k₀, t₀, k, t, ⟨1, by decide⟩, h₁, ⟨h₀, _, none, hc₀, ha⟩, ?_, hpid, hc, h, ?_, hlt⟩
  · rw [Run.exec_append, hu, Option.bind_some, Run.exec_append, hsleep, Option.bind_some, hk]
  · rw [timers, List.countP_append, List.countP_append, List.countP_replicate]
    rfl

end Xv6.Jobs
