import AdvancedXv6.Locks.Threads

/-! The invariant: the threads, the spinlocks, the sleep locks and the pids. -/

namespace Xv6.Locks.Sys
open Function

variable {C : Type}

/-- The sleep locks are as the threads count on, and a process that sleeps for one will be woken. -/
structure Sleeps (s : Sys C) (a : Thread C → Flow) : Prop where
  owns : ∀ k i, i ∈ (a k).owns → ∃ q, k = .proc q ∧ s.sleep i = ⟨true, (s.proc q).pid⟩
  free : ∀ c i, (a (s.cur c)).free = some i → (s.sleep i).locked = false
  sleeper : ∀ q i, (s.proc q).state = .sleeping → (s.proc q).chan = some (.sleeplock i) →
    (s.sleep i).locked = true ∨ ∃ c, (a (s.cur c)).owes = some i
  bound : ∀ c i, (a (s.cur c)).bound = some i → (s.sleep i).locked = true ∨ ∃ d, (a (s.cur d)).owes = some i

/-- No two processes have one pid. -/
structure Pids (s : Sys C) : Prop where
  used : ∀ q, (s.proc q).state ≠ .unused → 0 < (s.proc q).pid ∧ (s.proc q).pid < s.nextpid
  inj : ∀ q r, (s.proc q).state ≠ .unused → (s.proc r).state ≠ .unused → (s.proc q).pid = (s.proc r).pid → q = r

structure Wf (s : Sys C) (a : Thread C → Flow) : Prop where
  threads : Threads s a
  spins : Spins s.cpu s.lock fun c => a (s.cur c)
  sleeps : Sleeps s a
  pids : Pids s
  panic : s.panic = none

variable {s t : Sys C} {a a' : Thread C → Flow} {c d : C} {q : Slot} {code rest : Code} {b : Flow} {k : Thread C} {l : Lock}
  {i : Nat} {x : Instr}

theorem Pids.congr (h : Pids s) (hstate : ∀ q, (t.proc q).state = .unused ↔ (s.proc q).state = .unused)
    (hpid : ∀ q, (t.proc q).pid = (s.proc q).pid) (hnext : t.nextpid = s.nextpid) : Pids t := by
  constructor
  · intro q hq
    rw [hpid, hnext]
    exact h.used q fun heq => hq ((hstate q).mpr heq)
  · intro q r hq hr heq
    rw [hpid, hpid] at heq
    exact h.inj q r (fun h => hq ((hstate q).mpr h)) (fun h => hr ((hstate r).mpr h)) heq

/-- The sleep locks stay as they are, and a process goes to sleep for one only after it was found taken. -/
theorem Sleeps.keep (h : Sleeps s a) (hsleep : t.sleep = s.sleep) (howns : ∀ k, (a' k).owns ⊆ (a k).owns)
    (hpid : ∀ q i, i ∈ (a' (.proc q)).owns → (t.proc q).pid = (s.proc q).pid)
    (hfree : ∀ c i, (a' (t.cur c)).free = some i → (a (s.cur c)).free = some i)
    (howes : ∀ c, (a' (t.cur c)).owes = (a (s.cur c)).owes)
    (hbound : ∀ c i, (a' (t.cur c)).bound = some i → (a (s.cur c)).bound = some i)
    (hsleeper : ∀ q i, (t.proc q).state = .sleeping → (t.proc q).chan = some (.sleeplock i) →
      ((s.proc q).state = .sleeping ∧ (s.proc q).chan = some (.sleeplock i)) ∨ ∃ c, (a (s.cur c)).bound = some i) :
    Sleeps t a' := by
  constructor
  · intro k i hi
    obtain ⟨q, rfl, hq⟩ := h.owns k i (howns k hi)
    exact ⟨q, rfl, by rw [hsleep, hq, hpid q i hi]⟩
  · intro c i hi
    rw [hsleep]
    exact h.free c i (hfree c i hi)
  · intro q i hq hch
    simp only [hsleep, howes]
    rcases hsleeper q i hq hch with hs | hs
    · exact h.sleeper q i hs.1 hs.2
    · obtain ⟨c, hc⟩ := hs
      exact h.bound c i hc
  · intro c i hi
    simp only [hsleep, howes]
    exact h.bound c i (hbound c i hi)

/-- The thread on `c` does nothing about the sleep locks that it has not found as they are. -/
theorem Sleeps.turn [DecidableEq C] (h : Sleeps s a) (hview : ∀ d, a' (t.cur d) = update (fun d => a (s.cur d)) c b d)
    (hsleep : t.sleep = s.sleep) (howns : ∀ k, (a' k).owns ⊆ (a k).owns)
    (hpid : ∀ q i, i ∈ (a' (.proc q)).owns → (t.proc q).pid = (s.proc q).pid)
    (hfree : b.free = (a (s.cur c)).free ∨ b.free = none) (howes : b.owes = (a (s.cur c)).owes)
    (hbound : b.bound = (a (s.cur c)).bound ∨ b.bound = none)
    (hsleeper : ∀ q i, (t.proc q).state = .sleeping → (t.proc q).chan = some (.sleeplock i) →
      ((s.proc q).state = .sleeping ∧ (s.proc q).chan = some (.sleeplock i)) ∨ ∃ c, (a (s.cur c)).bound = some i) :
    Sleeps t a' := by
  have hopt {o o' : Option Nat} {i : Nat} (ho : o = o' ∨ o = none) (hi : o = some i) : o' = some i := by
    rcases ho with ho | ho
    · rw [← ho, hi]
    · rw [ho] at hi
      exact absurd hi.symm (Option.some_ne_none i)
  refine h.keep hsleep howns hpid (fun d i => ?_) (fun d => ?_) (fun d i => ?_) hsleeper <;> rw [hview]
  all_goals by_cases hd : d = c
  · subst hd
    rw [update_self]
    exact hopt hfree
  · rw [update_of_ne hd]
    exact id
  · subst hd
    rw [update_self, howes]
  · rw [update_of_ne hd]
  · subst hd
    rw [update_self]
    exact hopt hbound
  · rw [update_of_ne hd]
    exact id

namespace Wf

theorem sub (h : Wf s a) (c : C) : (a (s.cur c)).named ⊆ (a (s.cur c)).held := (h.threads.ok _).named

theorem flows (h : Wf s a) (hcode : s.code c = x :: rest) :
    x.allowed (a (s.cur c)) ∧ (x.last (a (s.cur c)) ∨ Flows rest (x.next (a (s.cur c)))) := by
  have := h.threads.flows _ (live_cur (c := c))
  rwa [← code_eq, hcode] at this

/-- The thread on `c` holds `ptable.lock`, so a process that sleeps is on no CPU. -/
theorem asleep_off (h : Wf s a) (hp : .ptable ∈ (a (s.cur c)).held) (hn : (a (s.cur c)).parked = none)
    (hq : (s.proc q).state = .sleeping) (d : C) : (s.cpu d).proc ≠ some q := by
  intro hd
  have hshows := h.threads.shows d q hd
  cases hpark : (a (.proc q)).parked with
  | none =>
    rw [hpark] at hshows
    exact ProcState.noConfusion (hq.symm.trans hshows)
  | some x =>
    have honly := ((h.threads.ok (.proc q)).parked (hpark ▸ Option.some_ne_none x)).1
    rw [← cur_proc hd] at honly hpark
    have hheld : .ptable ∈ (a (s.cur d)).held := by
      rw [honly.2.1]
      exact Finset.mem_singleton_self _
    have hdc : d = c := h.spins.holds.unique hheld hp
    rw [hdc, hn] at hpark
    exact Option.noConfusion rfl (heq_of_eq hpark)

variable [DecidableEq C]

/-- The thread on `c` goes on, and nothing else changes in the processes. -/
theorem goes (h : Wf s a) (hg : Goes s c code t) (hflows : Flows code b) (hok : b.Ok)
    (hproc : b.proc = (a (s.cur c)).proc) (hparked : b.parked = (a (s.cur c)).parked)
    (hkids : b.kids ⊆ (a (s.cur c)).kids) (hspins : Spins t.cpu t.lock (update (fun d => a (s.cur d)) c b))
    (hsleeps : Sleeps t (update a (s.cur c) b)) (hpanic : t.panic = s.panic) : Wf t (update a (s.cur c) b) where
  threads := h.threads.goes hg hflows hok hproc hparked hkids
  spins := by
    have : (fun d => update a (s.cur c) b (t.cur d)) = update (fun d => a (s.cur d)) c b := by
      funext d
      rw [hg.cur, h.threads.update_cur]
    rwa [this]
  sleeps := hsleeps
  pids := h.pids.congr (fun q => by rw [hg.state]) hg.pid hg.nextpid
  panic := hpanic.trans h.panic

/-- What `goes` asks of the sleep locks, for a step that is not about them. -/
theorem sleeps_goes (h : Wf s a) (hg : Goes s c code t) (hsleep : t.sleep = s.sleep)
    (howns : b.owns ⊆ (a (s.cur c)).owns) (hfree : b.free = (a (s.cur c)).free ∨ b.free = none)
    (howes : b.owes = (a (s.cur c)).owes) (hbound : b.bound = (a (s.cur c)).bound ∨ b.bound = none) :
    Sleeps t (update a (s.cur c) b) := by
  refine h.sleeps.turn (fun d => ?_) hsleep (update_subset Flow.owns howns) (fun q _ _ => hg.pid q) hfree howes hbound
    fun q i hq hch => ?_
  · rw [hg.cur, h.threads.update_cur]
  · rw [hg.state] at hq
    rw [hg.chan] at hch
    exact .inl ⟨hq, hch⟩

/-- What `goes` asks of the sleep locks, for a step that is about one of them. -/
theorem sleeps_turn (h : Wf s a) (hg : Goes s c code t)
    (howns : ∀ i ∈ b.owns, ∃ q, s.cur c = .proc q ∧ t.sleep i = ⟨true, (s.proc q).pid⟩)
    (hothers : ∀ k i, k ≠ s.cur c → i ∈ (a k).owns → t.sleep i = s.sleep i)
    (hfree : ∀ i, b.free = some i → (t.sleep i).locked = false)
    (hfrees : ∀ d i, d ≠ c → (a (s.cur d)).free = some i → t.sleep i = s.sleep i)
    (hlocked : ∀ i, (s.sleep i).locked = true → (t.sleep i).locked = true ∨ b.owes = some i)
    (howes : ∀ i, (a (s.cur c)).owes = some i → b.owes = some i)
    (hbound : ∀ i, b.bound = some i → (a (s.cur c)).bound = some i ∨ (s.sleep i).locked = true) :
    Sleeps t (update a (s.cur c) b) := by
  have hcur (d : C) : update a (s.cur c) b (t.cur d) = update (fun d => a (s.cur d)) c b d := by
    rw [hg.cur, h.threads.update_cur]
  have hwait (i : Nat) (hi : (s.sleep i).locked = true ∨ ∃ d, (a (s.cur d)).owes = some i) :
      (t.sleep i).locked = true ∨ ∃ d, (update (fun d => a (s.cur d)) c b d).owes = some i := by
    rcases hi with hi | hi
    · refine (hlocked i hi).imp id fun hb => ⟨c, ?_⟩
      rwa [update_self]
    · obtain ⟨d, hd⟩ := hi
      refine .inr ⟨d, ?_⟩
      by_cases hdc : d = c
      · subst hdc
        rw [update_self]
        exact howes i hd
      · rwa [update_of_ne hdc]
  constructor
  · intro k i hi
    by_cases hk : k = s.cur c
    · subst hk
      rw [update_self] at hi
      obtain ⟨q, hq, hs⟩ := howns i hi
      exact ⟨q, hq, by rw [hs, hg.pid]⟩
    · rw [update_of_ne hk] at hi
      obtain ⟨q, hq, hs⟩ := h.sleeps.owns k i hi
      exact ⟨q, hq, by rw [hothers k i hk hi, hs, hg.pid]⟩
  · intro d i hi
    rw [hcur] at hi
    by_cases hd : d = c
    · subst hd
      rw [update_self] at hi
      exact hfree i hi
    · rw [update_of_ne hd] at hi
      rw [hfrees d i hd hi]
      exact h.sleeps.free d i hi
  · intro q i hq hch
    rw [hg.state] at hq
    rw [hg.chan] at hch
    simp only [hcur]
    exact hwait i (h.sleeps.sleeper q i hq hch)
  · intro d i hi
    simp only [hcur] at hi ⊢
    apply hwait
    by_cases hd : d = c
    · subst hd
      rw [update_self] at hi
      rcases hbound i hi with hb | hb
      · exact h.sleeps.bound d i hb
      · exact .inl hb
    · rw [update_of_ne hd] at hi
      exact h.sleeps.bound d i hi

omit [DecidableEq C] in
/-- A process that counts on a sleep lock is the only one. -/
theorem owns_inj (h : Wf s a) {k k' : Thread C} (hk : i ∈ (a k).owns) (hk' : i ∈ (a k').owns) : k = k' := by
  obtain ⟨q, rfl, hq⟩ := h.sleeps.owns k i hk
  obtain ⟨r, rfl, hr⟩ := h.sleeps.owns k' i hk'
  have hused {q : Slot} (hi : i ∈ (a (.proc q)).owns) : (s.proc q).state ≠ .unused := by
    intro hu
    have hdead : ¬s.Live (.proc q) := by
      rintro (hl | hl | ⟨d, hd⟩)
      · exact ProcState.noConfusion (hu.symm.trans hl)
      · exact ProcState.noConfusion (hu.symm.trans hl)
      · have hshows := h.threads.shows d q hd
        rcases hp : (a (.proc q)).parked with _ | _ | _ | _ <;> simp [hp, Proc.Shows, hu] at hshows
    rw [(h.threads.dead q hdead).1] at hi
    exact Finset.notMem_empty i hi
  rw [h.pids.inj q r (hused hk) (hused hk') (congrArg Sleeplock.pid (hq.symm.trans hr))]

end Wf

end Xv6.Locks.Sys
