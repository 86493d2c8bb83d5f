import AdvancedXv6.Jobs.StartLater
import AdvancedXv6.Jobs.Clock
import Mathlib.Data.Fintype.Card
import Mathlib.Data.Finset.Card

/-! No process starves: how many can have waited for how long, if every timer interrupt is followed
by a dispatch. -/

namespace Xv6.Jobs
open Function

variable {k t u : Kernel} {e : Event} {i j c : Slot} {p q : Proc} {n : Nat} {owed : Bool}

/-! ### Promptness -/

/-- Whether a dispatch is owed after the step. -/
def owes (k : Kernel) (e : Event) (t : Kernel) (owed : Bool) : Bool :=
  if e.isTimer = true then decide (∃ i, t.Selectable i)
  else owed && !decide (e = .scheduler ∧ k.prioritise.highest ≠ none)

/-- The system in which the scheduler dispatches a process between two timer interrupts, if there is
one to select after the first of them. -/
def promptStep (s : Kernel × Bool) (e : Event) : Option (Kernel × Bool) :=
  if e.isTimer = true ∧ s.2 = true then none
  else (s.1.step e).map fun t => (t, owes s.1 e t s.2)

theorem promptStep_some {s s' : Kernel × Bool} (h : promptStep s e = some s') :
    s.1.step e = some s'.1 ∧ s'.2 = owes s.1 e s'.1 s.2 ∧ (e.isTimer = true → s.2 = false) := by
  rw [promptStep] at h
  split at h
  · cases h
  · rename_i hn
    obtain ⟨t, ht, rfl⟩ := Option.map_eq_some_iff.mp h
    refine ⟨ht, rfl, fun he => ?_⟩
    rw [← Bool.not_eq_true]
    exact fun ho => hn ⟨he, ho⟩

/-- The running process is about to leave. -/
def Kernel.Leaving (k : Kernel) : Prop :=
  ∀ c, k.cur = some c → (k.proc c).activity = .exit ∧ (k.proc c).context ≠ .yield

theorem Kernel.Leaving.not_busy (h : k.Leaving) : k.busy = false := by
  rw [Kernel.busy]
  cases hc : k.cur with
  | none => rfl
  | some c => exact decide_eq_false (h c hc).2

/-- While the running process is about to leave, nothing takes a process that could run away. -/
theorem Kernel.Leaving.move (hk : k.Wf) (hl : k.Leaving) (h : k.step e = some t)
    (he : e.isTimer = false) (hd : ¬(e = .scheduler ∧ k.prioritise.highest ≠ none))
    (hi : (k.proc i).state = .runnable ∨ (k.proc i).state = .running) :
    Roused k e i (k.proc i) (t.proc i) ∨
      k.cur = some i ∧ ((t.proc i).state = .sleeping ∨ (t.proc i).state = .zombie) := by
  have not {s : ProcState} (hs : (k.proc i).state = s) (h : s ≠ .runnable ∧ s ≠ .running) :
      Roused k e i (k.proc i) (t.proc i) ∨
        k.cur = some i ∧ ((t.proc i).state = .sleeping ∨ (t.proc i).state = .zombie) := by
    rcases hi with hi | hi
    · exact absurd (hs.symm.trans hi) h.1
    · exact absurd (hs.symm.trans hi) h.2
  have busy := (step_some h).2.1
  rw [hl.not_busy] at busy
  cases step_move hk h i with
  | roused h => exact .inl h
  | allocated _ _ hp _ | started _ _ hp _ | reaped _ _ hp _ => exact not hp ⟨by simp, by simp⟩
  | failed c _ _ hc ha _ | copied c _ _ hc ha _ | finished c _ _ hc ha _ =>
    cases (hl c hc).1.symm.trans ha
  | slept _ hc _ hs => exact .inr ⟨hc, .inl hs⟩
  | exited _ hc _ hs => exact .inr ⟨hc, .inr hs⟩
  | waited _ _ h | ran _ _ h =>
    subst h
    cases he
  | dispatched h _ hh => exact absurd ⟨h, by rw [hh]; simp⟩ hd
  | suspended h | gaveUp h =>
    subst h
    cases busy

theorem Kernel.Leaving.step (hk : k.Wf) (hl : k.Leaving) (h : k.step e = some t)
    (he : e.isTimer = false) (hd : ¬(e = .scheduler ∧ k.prioritise.highest ≠ none)) : t.Leaving := by
  have keep (hc : t.cur = k.cur) (hs : ∀ c, k.cur = some c → (t.proc c).state = .running) : t.Leaving := by
    intro c hct
    rw [hc] at hct
    obtain ⟨ha, hx⟩ := hl c hct
    rcases hl.move hk h he hd (.inr ((hk.running c).mpr hct)) with hr | ⟨-, hs'⟩
    · rw [hr.context]
      refine ⟨?_, hx⟩
      rcases hr.activity with h | ⟨-, h, -⟩
      · rw [h, ha]
      · exact absurd ha h
    · rw [hs c hct] at hs'
      simp at hs'
  have busy := (step_some h).2.1
  rw [hl.not_busy] at busy
  cases step_turn hk h with
  | stays _ hsame hs => exact keep hsame.cur hs
  | asks _ h | panics _ h => rw [h]; exact hl
  | leaves c _ _ hsame => exact fun c' hc' => absurd (hsame.cur.symm.trans hc') (by simp)
  | ticks user h =>
    subst h
    cases he
  | returns c h =>
    subst h
    cases busy
  | idles _ hc _ hsame => exact fun c' hc' => absurd ((hsame.cur.trans hc).symm.trans hc') (by simp)
  | dispatches c h _ hh => exact absurd ⟨h, by rw [hh]; simp⟩ hd

/-- A timer interrupt leaves no process running, or one that is about to leave. -/
theorem leaving_timer {user : Bool} (hk : k.Wf) (h : k.step (.timer user) = some t) : t.Leaving := by
  have hbusy := (Kernel.step_some h).2.1
  intro c hct
  cases step_turn hk h with
  | ticks user' _ _ hc =>
    rcases hc with ⟨hc, -⟩ | ⟨c', hc, hct', hs, ha⟩
    · cases hc.symm.trans hct
    · obtain rfl := Option.some.inj (hct.symm.trans hct')
      refine ⟨ha, fun hx => ?_⟩
      have hkx : (k.proc c).context ≠ .yield := by
        rw [Kernel.busy, hc] at hbusy
        exact of_decide_eq_false hbusy
      have hrun := (hk.running c).mpr hc
      cases step_move hk h c with
      | roused h => exact hkx (h.context.symm.trans hx)
      | ran _ _ _ _ _ hq =>
        rcases hq with hq | hq
        · rw [hq] at hs
          cases hs
        · rw [hq] at hx
          exact hkx hx
      | waited _ _ _ hp _ => cases hp.symm.trans hrun
      | slept he _ _ _ _ _ => rcases he with he | ⟨x, he⟩ <;> cases he
      | allocated _ he | failed _ _ he | copied _ _ he | finished _ _ he | started he => cases he
      | exited he | reaped he | dispatched he | suspended he | gaveUp he => cases he
  | stays he => rcases he with he | he <;> cases he
  | leaves _ he => rcases he with he | he | ⟨x, he⟩ <;> cases he
  | asks he | panics he | returns _ he | idles he | dispatches _ he => cases he

/-! ### Waiting counts for more than running -/

/-- The counters of a process in a run of at most 900000 timer interrupts. -/
structure Proc.Low (p : Proc) : Prop where
  initial : 0 ≤ p.initialPriority ∧ p.initialPriority ≤ 50
  cpu : 0 ≤ p.cpuTicks ∧ p.cpuTicks ≤ 900000
  wait : 0 ≤ p.waitTicks ∧ p.waitTicks ≤ 65

theorem priority_eq (hp : p.Low) : p.priority =
    (10 * p.initialPriority - 11 * p.cpuTicks + 10000001 * p.waitTicks).tdiv 10 := by
  obtain ⟨hi, hc, hw⟩ := hp
  rw [Proc.priority, if_pos]
  have h := Int.tmod_add_mul_tdiv (10 * p.initialPriority - 11 * p.cpuTicks + 10000001 * p.waitTicks) 10
  have := Int.tmod_lt_of_pos (10 * p.initialPriority - 11 * p.cpuTicks + 10000001 * p.waitTicks)
    (show (0 : Int) < 10 by decide)
  have := Int.lt_tmod_of_pos (10 * p.initialPriority - 11 * p.cpuTicks + 10000001 * p.waitTicks)
    (show (0 : Int) < 10 by decide)
  omega

/-- What the first loop of `scheduler` makes of the priority. -/
theorem prioritise_dynPriority (hs : (k.proc i).state = .runnable) :
    (k.prioritise.proc i).dynPriority = max 0 (k.proc i).priority := by
  show (if (k.proc i).state = .runnable then _ else _ : Proc).dynPriority = _
  rw [if_pos hs, Kernel.helper3]
  dsimp only
  split
  · rw [max_eq_left (by omega)]
  · rw [max_eq_right (by omega)]

/-- A process that has waited longer has the higher priority. -/
theorem priority_lt (hp : p.Low) (hq : q.Low) (h : p.waitTicks < q.waitTicks) :
    max 0 p.priority < max 0 q.priority := by
  have hp₁ := hp.initial
  have hp₂ := hp.cpu
  have hp₃ := hp.wait
  have hq₁ := hq.initial
  have hq₂ := hq.cpu
  have hq₃ := hq.wait
  rw [priority_eq hp, priority_eq hq]
  rw [Int.tdiv_eq_ediv_of_nonneg (show 0 ≤ 10 * q.initialPriority - 11 * q.cpuTicks + 10000001 * q.waitTicks by omega)]
  by_cases hn : 0 ≤ 10 * p.initialPriority - 11 * p.cpuTicks + 10000001 * p.waitTicks
  · rw [Int.tdiv_eq_ediv_of_nonneg hn]
    omega
  · have := Int.tdiv_nonneg (show 0 ≤ -(10 * p.initialPriority - 11 * p.cpuTicks +
      10000001 * p.waitTicks) by omega) (show (0 : Int) ≤ 10 by decide)
    rw [Int.neg_tdiv] at this
    omega

/-- The scheduler dispatches a process that has waited at least as long as any other. -/
theorem dispatched_waited (hlow : ∀ i, ¬(k.proc i).Barred → (k.proc i).Low) (hi : k.Selectable i)
    (hh : k.prioritise.highest = some j) : (k.proc i).waitTicks ≤ (k.proc j).waitTicks := by
  have hj := selectable_prioritise.mp (best_highest.selectable j hh)
  obtain ⟨j', hj', hle⟩ := best_highest.highest i (List.mem_finRange i) (selectable_prioritise.mpr hi)
  obtain rfl := Option.some.inj (hh.symm.trans hj')
  rw [prioritise_dynPriority hi.1, prioritise_dynPriority hj.1] at hle
  by_contra hlt
  exact absurd (priority_lt (hlow j hj.2) (hlow i hi.2) (by omega)) (by omega)

/-! ### How many have waited for how long -/

/-- The processes that have waited for at least `n` ticks, without those that the scheduler passes
over. -/
def Kernel.waiting (k : Kernel) (n : Nat) : Finset Slot :=
  Finset.univ.filter fun i => ¬(k.proc i).Barred ∧ (n : Int) ≤ (k.proc i).waitTicks

theorem Kernel.mem_waiting : i ∈ k.waiting n ↔ ¬(k.proc i).Barred ∧ (n : Int) ≤ (k.proc i).waitTicks := by
  rw [waiting, Finset.mem_filter, and_iff_right (Finset.mem_univ i)]

theorem card_waiting (k : Kernel) : (k.waiting n).card ≤ nProc :=
  (Finset.card_le_univ _).trans_eq (Fintype.card_fin nProc)

/-- Between two dispatches that are owed nothing, at most `nProc - n` processes have waited for `n`
ticks. While a dispatch is owed it can be one more, if one of them could run. -/
structure Aging (k : Kernel) (owed : Bool) : Prop where
  charged : k.Charged
  initial : ∀ i, 0 ≤ (k.proc i).initialPriority ∧ (k.proc i).initialPriority ≤ 50
  fresh : ∀ i, (k.proc i).Barred → (k.proc i).state = .sleeping → (k.proc i).waitTicks = 0
  settled : owed = false → ∀ n, (k.waiting n).card ≤ nProc - n
  pending : owed = true → k.Leaving ∧ ∀ n, (k.waiting (n + 1)).card ≤ nProc - n ∧
    ((∀ i ∈ k.waiting (n + 1), (k.proc i).state ≠ .runnable) →
      (k.waiting (n + 1)).card ≤ nProc - (n + 1))

theorem Aging.waitTicks_le (h : Aging k owed) (hb : ¬(k.proc i).Barred) : (k.proc i).waitTicks ≤ nProc := by
  have hcard : (k.waiting (nProc + 1)).card = 0 := by
    cases owed with
    | false => exact Nat.le_zero.mp ((h.settled rfl _).trans (by decide))
    | true => exact Nat.le_zero.mp (((h.pending rfl).2 nProc).1.trans (by decide))
  by_contra hlt
  have hi : i ∈ k.waiting (nProc + 1) := Kernel.mem_waiting.mpr ⟨hb, by omega⟩
  rw [Finset.card_eq_zero.mp hcard] at hi
  exact absurd hi (Finset.notMem_empty i)

theorem Aging.low (h : Aging k owed) (he : Early 900000 k e) (hb : ¬(k.proc i).Barred) :
    (k.proc i).Low := by
  have hle := he.timer
  obtain ⟨h₁, h₂, h₃, h₄⟩ := (h.charged i).2 (by omega)
  have hw := h.waitTicks_le hb
  have : nProc = 64 := rfl
  exact ⟨h.initial i, ⟨h₁, by omega⟩, h₂, by omega⟩

/-- Whoever has waited after the step had waited before, up to the tick that a timer interrupt
charges. -/
theorem Aging.back (h : Aging k owed) (he : Early 900000 k e) (hs : k.step e = some t) (hn : 1 ≤ n)
    (hi : i ∈ t.waiting n) : ¬(k.proc i).Barred ∧ ((n : Int) ≤ (k.proc i).waitTicks ∨
      e.isTimer = true ∧ (k.proc i).state = .runnable ∧ (t.proc i).state = .runnable ∧
        (n : Int) ≤ (k.proc i).waitTicks + 1) := by
  obtain ⟨hb, hw⟩ := Kernel.mem_waiting.mp hi
  have hp := (Kernel.step_some hs).1
  have hwf := he.reachable.wf hp
  have hle := he.timer
  obtain ⟨h₁, h₂, h₃, h₄⟩ := (h.charged i).2 (by omega)
  have hwait : (n : Int) ≤ (k.proc i).waitTicks ∨
      e.isTimer = true ∧ (k.proc i).state = .runnable ∧ (t.proc i).state = .runnable ∧
        (n : Int) ≤ (k.proc i).waitTicks + 1 := by
    cases step_charge hwf hs i with
    | created c custom _ _ hq =>
      have : (t.proc i).waitTicks = 0 := by
        rw [hq]
        cases custom <;> rfl
      omega
    | none _ _ _ hq => rcases hq with hq | ⟨-, hq⟩ <;> omega
    | waited he' hr hr' _ _ _ hq =>
      have hd := he.onTime.elapsed_le
      rw [int_of_lt (by omega) (by omega)] at hq
      exact .inr ⟨he', hr, hr', by omega⟩
    | ran _ _ _ _ _ hq => exact .inl (by omega)
  refine ⟨fun hkb => ?_, hwait⟩
  obtain ⟨hst, hno⟩ := he.reachable.barredWait hp i hkb
  rcases (step_move hwf hs i).barred hwf hkb hst hno with ⟨h, -⟩ | ⟨-, hsl, -⟩
  · exact hb h
  · have := h.fresh i hkb hsl
    rcases hwait with h | ⟨-, h, -⟩
    · omega
    · cases hsl.symm.trans h

theorem Move.initial (h : Move k e i p q) :
    q.initialPriority = p.initialPriority ∨ q.initialPriority = initPriority := by
  cases h with
  | roused h => exact .inl h.initial
  | allocated _ _ _ h | failed _ _ _ _ _ h | started _ _ _ h | reaped _ _ _ h => exact .inl (by rw [h])
  | copied _ _ _ _ _ _ _ _ _ _ _ _ _ h => exact .inl h
  | finished _ custom _ _ _ h =>
    refine .inr ?_
    rw [h]
    cases custom <;> rfl
  | slept _ _ h | exited _ _ h => exact .inl h.initial
  | waited _ _ _ _ h => exact .inl (by rw [h]; rfl)
  | ran _ _ _ _ _ h => exact .inl (by rcases h with h | h <;> rw [h])
  | dispatched _ _ _ _ _ _ _ _ _ _ h => exact .inl h
  | suspended _ _ _ h => exact .inl (by rcases h with ⟨-, h⟩ | ⟨-, h⟩ <;> rw [h])
  | gaveUp _ _ h => exact .inl (by rcases h with h | h <;> rw [h])

/-- A process that sleeps and is passed over has not waited. -/
theorem Aging.fresh_step (h : Aging k owed) (hk : k.Reachable) (hs : k.step e = some t)
    (hb : (t.proc i).Barred) (hsl : (t.proc i).state = .sleeping) : (t.proc i).waitTicks = 0 := by
  have hp := (Kernel.step_some hs).1
  have hwf := hk.wf hp
  have hm := step_move hwf hs i
  by_cases hkb : (k.proc i).Barred
  · obtain ⟨hst, hno⟩ := hk.barredWait hp i hkb
    have hcur (hc : k.cur = some i) : (t.proc i).waitTicks = 0 := by
      rw [(hwf.running i).mpr hc] at hst
      simp at hst
    cases hm with
    | roused hr =>
      rcases hr.state with hs | ⟨-, hs⟩
      · exact hr.wait.trans (h.fresh i hkb (hs.symm.trans hsl))
      · cases hs.symm.trans hsl
    | allocated _ _ _ hq | failed _ _ _ _ _ hq | started _ _ _ hq | reaped _ _ _ hq =>
      rw [hq] at hsl
      cases hsl
    | copied c custom _ _ ha | finished c custom _ _ ha => exact absurd ⟨c, custom, _, ha⟩ hno
    | slept _ hc | exited _ hc | ran _ _ _ hc | gaveUp _ hc => exact hcur hc
    | waited _ _ _ hr hq =>
      rw [hq] at hsl
      cases hr.symm.trans hsl
    | dispatched _ _ _ _ _ hr => cases hr.symm.trans hsl
    | suspended _ _ _ hq => rcases hq with ⟨-, hq⟩ | ⟨-, hq⟩ <;> rw [hq] at hsl <;> cases hsl
  · obtain ⟨c, flag, m, rfl, hc, ha, -⟩ := hm.unbarred hkb hb
    obtain ⟨custom, hq⟩ := Kernel.Makes.proc hwf (⟨hs, c, _, hc, ha⟩ : Kernel.Makes _ _ i)
    rw [hq]
    cases custom <;> rfl

/-! ### One step -/

/-- Without a timer interrupt nobody has waited for longer. -/
theorem Aging.waiting_subset (h : Aging k owed) (he : Early 900000 k e) (hs : k.step e = some t)
    (hno : e.isTimer = false) (hn : 1 ≤ n) : t.waiting n ⊆ k.waiting n := by
  intro i hi
  obtain ⟨hb, hw | ⟨ht, -⟩⟩ := h.back he hs hn hi
  · exact Kernel.mem_waiting.mpr ⟨hb, hw⟩
  · cases hno.symm.trans ht

/-- A timer interrupt charges one tick, and none to those that cannot run. -/
theorem Aging.waiting_timer (h : Aging k owed) (he : Early 900000 k e) (hs : k.step e = some t) :
    t.waiting (n + 1) ⊆ k.waiting n ∧ ((∀ i ∈ t.waiting (n + 1), (t.proc i).state ≠ .runnable) →
      t.waiting (n + 1) ⊆ k.waiting (n + 1)) := by
  refine ⟨fun i hi => ?_, fun hall i hi => ?_⟩
  · obtain ⟨hb, hw⟩ := h.back he hs (Nat.le_add_left 1 n) hi
    refine Kernel.mem_waiting.mpr ⟨hb, ?_⟩
    rcases hw with hw | ⟨-, -, -, hw⟩ <;> omega
  · obtain ⟨hb, hw | ⟨-, -, hr, -⟩⟩ := h.back he hs (Nat.le_add_left 1 n) hi
    · exact Kernel.mem_waiting.mpr ⟨hb, hw⟩
    · exact absurd hr (hall i hi)

theorem settled_timer (h : Aging k false) (he : Early 900000 k e) (hs : k.step e = some t)
    (hno : ¬∃ i, t.Selectable i) (n : Nat) : (t.waiting n).card ≤ nProc - n := by
  cases n with
  | zero => exact card_waiting t
  | succ n =>
    refine (Finset.card_le_card ((h.waiting_timer he hs).2 fun i hi hr => ?_)).trans (h.settled rfl _)
    exact hno ⟨i, hr, (Kernel.mem_waiting.mp hi).1⟩

theorem pending_timer (h : Aging k false) (he : Early 900000 k e) (hs : k.step e = some t) (n : Nat) :
    (t.waiting (n + 1)).card ≤ nProc - n ∧
      ((∀ i ∈ t.waiting (n + 1), (t.proc i).state ≠ .runnable) →
        (t.waiting (n + 1)).card ≤ nProc - (n + 1)) := by
  obtain ⟨h₁, h₂⟩ := h.waiting_timer (n := n) he hs
  exact ⟨(Finset.card_le_card h₁).trans (h.settled rfl n),
    fun hall => (Finset.card_le_card (h₂ hall)).trans (h.settled rfl _)⟩

/-- The dispatch that is owed takes away one of those that have waited for longest. -/
theorem settled_dispatch (h : Aging k true) (he : Early 900000 k .scheduler)
    (hs : k.step .scheduler = some t) (hh : k.prioritise.highest = some j) (n : Nat) :
    (t.waiting n).card ≤ nProc - n := by
  cases n with
  | zero => exact card_waiting t
  | succ n =>
    have hsub := h.waiting_subset he hs rfl (Nat.le_add_left 1 n)
    by_cases hall : ∀ i ∈ k.waiting (n + 1), (k.proc i).state ≠ .runnable
    · exact (Finset.card_le_card hsub).trans (((h.pending rfl).2 n).2 hall)
    · push Not at hall
      obtain ⟨i, hi, hr⟩ := hall
      have hle := dispatched_waited (fun i hb => h.low he hb) ⟨hr, (Kernel.mem_waiting.mp hi).1⟩ hh
      have hj := selectable_prioritise.mp (best_highest.selectable j hh)
      have hjk : j ∈ k.waiting (n + 1) :=
        Kernel.mem_waiting.mpr ⟨hj.2, (Kernel.mem_waiting.mp hi).2.trans hle⟩
      have hjt : j ∉ t.waiting (n + 1) := by
        intro hjt
        have hw := (Kernel.mem_waiting.mp hjt).2
        have hwf := he.reachable.wf (Kernel.step_some hs).1
        have hc : k.cur = none := by
          by_contra hc
          have := (Kernel.step_some hs).2.2
          rw [Kernel.perform, if_neg hc] at this
          cases this
        have hrun : (t.proc j).state = .running := by
          cases step_turn hwf hs with
          | dispatches c _ _ hc _ _ hr => exact Option.some.inj (hh.symm.trans hc) ▸ hr
          | idles _ _ hno => cases hh.symm.trans hno
          | stays he => rcases he with he | he <;> cases he
          | leaves _ he => rcases he with he | he | ⟨x, he⟩ <;> cases he
          | asks he | panics he | returns _ he | ticks _ he => cases he
        have := ((step_move hwf hs j).dispatched_of_running hwf (by rw [hc]; simp) hrun).2.2.1
        omega
      have := Finset.card_lt_card (Finset.ssubset_iff_of_subset hsub |>.mpr ⟨j, hjk, hjt⟩)
      have := ((h.pending rfl).2 n).1
      omega

/-- While a dispatch is owed, those that could run do not go. -/
theorem pending_step (h : Aging k true) (he : Early 900000 k e) (hs : k.step e = some t)
    (hno : e.isTimer = false) (hd : ¬(e = .scheduler ∧ k.prioritise.highest ≠ none)) (n : Nat) :
    (t.waiting (n + 1)).card ≤ nProc - n ∧
      ((∀ i ∈ t.waiting (n + 1), (t.proc i).state ≠ .runnable) →
        (t.waiting (n + 1)).card ≤ nProc - (n + 1)) := by
  have hwf := he.reachable.wf (Kernel.step_some hs).1
  obtain ⟨hl, hp⟩ := h.pending rfl
  have hsub := h.waiting_subset he hs hno (Nat.le_add_left 1 n)
  refine ⟨(Finset.card_le_card hsub).trans (hp n).1, fun hall => ?_⟩
  refine (Finset.card_le_card hsub).trans ((hp n).2 fun i hi hr => ?_)
  obtain ⟨hb, hw⟩ := Kernel.mem_waiting.mp hi
  rcases hl.move hwf hs hno hd (.inl hr) with hm | ⟨hc, -⟩
  · have hit : i ∈ t.waiting (n + 1) := by
      refine Kernel.mem_waiting.mpr ⟨fun hbt => hb ⟨hm.enabled ▸ hbt.1, hm.flag ▸ hbt.2⟩, ?_⟩
      rw [hm.wait]
      exact hw
    rcases hm.state with hst | ⟨-, hst⟩
    · exact hall i hit (hst.trans hr)
    · exact hall i hit hst
  · cases hr.symm.trans ((hwf.running i).mpr hc)

theorem Aging.step {s s' : Kernel × Bool} (h : Aging s.1 s.2) (he : Early 900000 s.1 e)
    (hs : promptStep s e = some s') : Aging s'.1 s'.2 := by
  obtain ⟨k, owed⟩ := s
  obtain ⟨t, owed'⟩ := s'
  obtain ⟨hstep, ho, hnow⟩ := promptStep_some hs
  dsimp only at h he hstep ho hnow ⊢
  have hwf := he.reachable.wf (Kernel.step_some hstep).1
  refine ⟨h.charged.step (by decide) he hstep, fun i => ?_, fun i => h.fresh_step he.reachable hstep,
    fun hf n => ?_, fun hf => ?_⟩
  · have := h.initial i
    rcases (step_move hwf hstep i).initial with hi | hi <;> rw [hi]
    · exact this
    · decide
  · rw [hf, owes] at ho
    split at ho
    · rename_i ht
      obtain rfl := hnow ht
      exact settled_timer h he hstep (of_decide_eq_false ho.symm) n
    · rename_i ht
      rw [Bool.not_eq_true] at ht
      cases owed with
      | false =>
        cases n with
        | zero => exact card_waiting t
        | succ n =>
          exact (Finset.card_le_card (h.waiting_subset he hstep ht (Nat.le_add_left 1 n))).trans
            (h.settled rfl _)
      | true =>
        have hd : e = .scheduler ∧ k.prioritise.highest ≠ none := by simpa using ho.symm
        obtain ⟨rfl, hh⟩ := hd
        obtain ⟨j, hj⟩ := Option.ne_none_iff_exists'.mp hh
        exact settled_dispatch h he hstep hj n
  · rw [hf, owes] at ho
    split at ho
    · rename_i ht
      obtain rfl := hnow ht
      cases e with
      | timer user => exact ⟨leaving_timer hwf hstep, pending_timer h he hstep⟩
      | _ => cases ht
    · rename_i ht
      rw [Bool.not_eq_true] at ht
      obtain ⟨rfl, hd⟩ : owed = true ∧ ¬(e = .scheduler ∧ k.prioritise.highest ≠ none) := by
        simpa only [Bool.and_eq_true, Bool.not_eq_true', decide_eq_false_iff_not] using ho.symm
      exact ⟨(h.pending rfl).1.step hwf hstep ht hd, pending_step h he hstep ht hd⟩

theorem aging_boot : Aging Kernel.boot false := by
  refine ⟨charged_boot, fun i => ?_, fun i hb => ?_, fun _ n => ?_, by simp⟩
  · simp only [Kernel.boot]
    split <;> decide
  · simp only [Kernel.boot] at hb
    split at hb <;> exact absurd hb.1 (show (0 : Int) ≠ 1 by decide)
  · cases n with
    | zero => exact card_waiting _
    | succ n =>
      have : Kernel.boot.waiting (n + 1) = ∅ := by
        refine Finset.eq_empty_of_forall_notMem fun i hi => ?_
        have hw := (Kernel.mem_waiting.mp hi).2
        have : (Kernel.boot.proc i).waitTicks = 0 := by
          simp only [Kernel.boot]
          split <;> rfl
        omega
      rw [this, Finset.card_empty]
      exact Nat.zero_le _

/-- In a run of at most 900000 timer interrupts, each followed by a dispatch before the next one if
there is a process to select, no process that can be selected has waited for more than `NPROC` ticks. -/
theorem waitTicks_bounded {es : List Event} {t : Kernel} {owed : Bool}
    (h : Run.exec promptStep (Kernel.boot, false) es = some (t, owed)) (hn : timers es ≤ 900000)
    (i : Slot) (hi : t.Selectable i) : (t.proc i).waitTicks ≤ nProc := by
  have hproj : ∀ (s : Kernel × Bool) (e : Event) (s' : Kernel × Bool), promptStep s e = some s' →
      s.1.step e = some s'.1 := fun _ _ _ hs => (promptStep_some hs).1
  have hearly := always_early (n := 900000) (by decide) (.refl _) boot_onTime
    ((Nat.zero_add _).trans_le hn)
  have := (Run.Always.project hproj hearly).invariant (I := fun s => Aging s.1 s.2)
    (fun _ _ _ hI hD hs => hI.step hD hs) aging_boot h
  exact this.waitTicks_le hi.2

/-- A child waits while its parent runs. -/
def waitOneTick : List Event :=
  [.scheduler, .timer false, .scheduler, .afterYield, .fork none, .forkCopy, .forkFinish, .timer false]

theorem waitTicks_bounded_child : ∃ t owed, Run.exec promptStep (Kernel.boot, false) waitOneTick =
    some (t, owed) ∧ t.Selectable ⟨1, by decide⟩ ∧ (t.proc ⟨1, by decide⟩).waitTicks = 1 ∧
    (t.proc ⟨1, by decide⟩).waitTicks ≤ nProc := by
  have h : (Run.exec promptStep (Kernel.boot, false) waitOneTick).any (fun s =>
      s.1.Selectable ⟨1, by decide⟩ ∧ (s.1.proc ⟨1, by decide⟩).waitTicks = 1) = true := by
    decide +kernel
  simp only [Option.any_eq_true, decide_eq_true_eq] at h
  obtain ⟨⟨t, owed⟩, h, hi, hw⟩ := h
  exact ⟨t, owed, h, hi, hw, waitTicks_bounded h (by decide) _ hi⟩

end Xv6.Jobs
