import AdvancedXv6.Jobs.Turn

/-! The invariant `Wf` holds in every reachable state that has not panicked. -/

namespace Xv6.Jobs
open Function

variable {k t : Kernel} {e : Event} {i j c np : Slot} {p q : Proc} {custom : Option (Int × Int)}
  {b : Bool}

@[simp] theorem initChild_context {n : Nat} : (Kernel.initChild n custom p).context = p.context := by
  cases custom <;> rfl

@[simp] theorem initChild_activity {n : Nat} : (Kernel.initChild n custom p).activity = p.activity := by
  cases custom <;> rfl

@[simp] theorem initChild_parent {n : Nat} : (Kernel.initChild n custom p).parent = p.parent := by
  cases custom <;> rfl

theorem initChild_state (n : Nat) (custom : Option (Int × Int)) (p : Proc) :
    (Kernel.initChild n custom p).state = .runnable ∨
    (Kernel.initChild n custom p).state = .sleeping := by
  cases custom with
  | none => exact .inl rfl
  | some x =>
    show (if x.1 ≠ 0 then ProcState.sleeping else .runnable) = _ ∨
      (if x.1 ≠ 0 then ProcState.sleeping else .runnable) = _
    split
    · exact .inr rfl
    · exact .inl rfl

/-- Only the scheduler makes a process run. -/
theorem Move.dispatched_of_running (hk : k.Wf) (hm : Move k e i (k.proc i) q)
    (hi : k.cur ≠ some i) (hq : q.state = .running) :
    e = .scheduler ∧ k.prioritise.highest = some i ∧ q.waitTicks = 0 ∧
      ((q.context = .none ∨ q.context = .yield) ∧ (k.proc i).context ≠ .none ∧
          (k.proc i).context ≠ .exit ∨
        q.context = (k.proc i).context ∧ ((k.proc i).context = .none ∨ (k.proc i).context = .exit)) := by
  have hnot : (k.proc i).state ≠ .running := fun h => hi ((hk.running i).mp h)
  cases hm with
  | roused h =>
    rcases h.state with hs | ⟨-, hs⟩
    · exact absurd (hs.symm.trans hq) hnot
    · cases hs.symm.trans hq
  | allocated _ _ _ h | failed _ _ _ _ _ h | started _ _ _ h | reaped _ _ _ h =>
    rw [h] at hq
    cases hq
  | copied _ _ _ _ _ hs => exact absurd (hs.symm.trans hq) hnot
  | finished c custom _ _ _ h =>
    rw [h] at hq
    rcases initChild_state k.ticks custom (k.proc i) with h | h <;>
      cases h.symm.trans hq
  | slept _ hc | exited _ hc | ran _ _ _ hc | gaveUp _ hc => exact absurd hc hi
  | waited _ _ _ hp h =>
    rw [h] at hq
    cases hp.symm.trans hq
  | dispatched he _ hh _ _ _ hw _ _ _ _ _ _ _ _ _ hx => exact ⟨he, hh, hw, hx⟩
  | suspended _ _ _ h =>
    rcases h with ⟨-, h⟩ | ⟨hc, -⟩
    · rw [h] at hq
      cases hq
    · exact absurd hc hi

theorem Move.not_running (hk : k.Wf) (hm : Move k e i (k.proc i) q) (hi : k.cur ≠ some i)
    (hd : e = .scheduler → k.prioritise.highest ≠ some i) : q.state ≠ .running := fun hq =>
  have h := hm.dispatched_of_running hk hi hq
  hd h.1 h.2.1

/-- A process that keeps running is not in a switch, except that it may be on its way back. -/
theorem Move.context_of_running (hk : k.Wf) (hm : Move k e i (k.proc i) q) (hi : k.cur = some i)
    (hq : q.state = .running) : q.context = .none ∨ q.context = .yield := by
  have hrun := (hk.running i).mpr hi
  have hx := hk.context i hi
  cases hm with
  | roused h => rwa [h.context]
  | allocated _ _ hp _ => cases hp.symm.trans hrun
  | failed c _ _ hc ha _ | copied c _ _ hc ha _ | finished c _ _ hc ha _ =>
    obtain rfl := Option.some.inj (hi.symm.trans hc)
    exact absurd rfl (hk.fork _ _ _ _ ha).ne
  | started _ _ hp _ => cases hp.symm.trans hrun
  | slept _ _ _ hs | exited _ _ _ hs => cases hs.symm.trans hq
  | reaped _ _ hp _ => cases hp.symm.trans hrun
  | waited _ _ _ hp _ => cases hp.symm.trans hrun
  | ran _ _ _ _ _ h =>
    rcases h with h | h
    · exact .inr (by rw [h])
    · rw [h]
      exact hx
  | dispatched _ hc => cases hc.symm.trans hi
  | suspended _ _ _ h =>
    rcases h with ⟨hc, -⟩ | ⟨-, h⟩
    · exact absurd hi hc
    · rw [h] at hq
      cases hq
  | gaveUp _ _ h =>
    rcases h with h | h
    · rw [h] at hq
      cases hq
    · exact .inl (by rw [h])

theorem not_forks_exit (h : k.step .exit = some t) (hc : k.cur = some c) :
    ¬(k.proc c).activity.Forks := by
  obtain ⟨-, -, h⟩ := Kernel.step_some h
  obtain ⟨c', hc', ha, -⟩ := Kernel.goOn_some h
  obtain rfl := Option.some.inj (hc.symm.trans hc')
  exact not_forks ha id id

theorem not_forks_wait (h : k.step .wait = some t) (hc : k.cur = some c) :
    ¬(k.proc c).activity.Forks := by
  obtain ⟨-, -, h⟩ := Kernel.step_some h
  obtain ⟨c', hc', ha, -⟩ := Kernel.goOn_some h
  obtain rfl := Option.some.inj (hc.symm.trans hc')
  exact not_forks ha id id

/-- A process is in the middle of `fork` after the step only if it was before, and goes on with it. -/
theorem step_activity (hk : k.Wf) (he : ¬e.Forks) (h : k.step e = some t)
    (ha : (t.proc c).activity = .fork np custom b) :
    (k.proc c).activity = .fork np custom b ∧
      ¬(k.cur = some c ∧ (e = .forkFail ∨ e = .forkFinish)) := by
  have hm := step_move hk h c
  have hf : (t.proc c).activity.Forks := by
    rw [ha]
    exact trivial
  have hend : ¬(k.cur = some c ∧ (e = .forkFail ∨ e = .forkFinish)) := by
    rintro ⟨hc, rfl | rfl⟩
    · obtain ⟨-, -, h⟩ := Kernel.step_some h
      obtain ⟨c', np', custom', hc', -, rfl⟩ := Kernel.goOnFork_some h
      obtain rfl := Option.some.inj (hc.symm.trans hc')
      rw [Kernel.forkFail, Kernel.modify_proc] at ha
      cases ha
    · obtain ⟨-, -, h⟩ := Kernel.step_some h
      obtain ⟨c', np', custom', hc', -, rfl⟩ := Kernel.goOnFork_some h
      obtain rfl := Option.some.inj (hc.symm.trans hc')
      rw [Kernel.forkFinish, Kernel.modify_proc] at ha
      cases ha
  refine ⟨?_, hend⟩
  have kept (hact : (t.proc c).activity = (k.proc c).activity) :
      (k.proc c).activity = .fork np custom b := hact.symm.trans ha
  cases hm with
  | roused h =>
    rcases h.activity with hact | ⟨-, -, hact⟩
    · exact kept hact
    · exact absurd hf (hact.resolve_left he)
  | allocated _ _ _ hq | failed _ _ _ _ _ hq | started _ _ _ hq | reaped _ _ _ hq =>
    exact kept (by rw [hq])
  | copied _ _ he' => exact absurd (he' ▸ trivial) he
  | finished _ _ _ _ _ hq => exact kept (by rw [hq, initChild_activity])
  | slept _ _ h | exited _ _ h =>
    rcases h.activity with hact | ⟨-, -, hact⟩
    · exact kept hact
    · exact absurd hf (hact.resolve_left he)
  | waited _ _ _ _ hq => exact kept (by rw [hq]; rfl)
  | ran _ _ _ _ _ h =>
    rcases h with hq | hq
    · exact kept (by rw [hq])
    · rw [hq] at hf
      exact hf.elim
  | dispatched _ _ _ _ _ _ _ _ _ _ _ _ _ _ hact => exact kept hact
  | suspended _ _ _ h => exact kept (by rcases h with ⟨-, hq⟩ | ⟨-, hq⟩ <;> rw [hq])
  | gaveUp _ _ h => exact kept (by rcases h with hq | hq <;> rw [hq])

/-- The running process, after the step. -/
theorem running_step (hk : k.Wf) (h : k.step e = some t) (i : Slot) :
    (t.proc i).state = .running ↔ t.cur = some i := by
  have hm := step_move hk h i
  cases step_turn hk h with
  | stays he hs hrun =>
    have hne : e ≠ .scheduler := by
      rintro rfl
      rcases he with he | he
      · exact he
      · cases he
    rw [hs.cur]
    exact ⟨fun hi => by_contra fun hc => hm.not_running hk hc (fun h => absurd h hne) hi, hrun i⟩
  | asks _ ht =>
    subst ht
    exact hk.running i
  | panics _ ht =>
    subst ht
    exact hk.running i
  | leaves c he hc hs hst =>
    have hne : e ≠ .scheduler := by
      rintro rfl
      rcases he with he | he | ⟨x, he⟩ <;> cases he
    rw [hs.cur]
    refine ⟨fun hi => ?_, by simp⟩
    by_cases hic : i = c
    · subst hic
      rw [hi] at hst
      simp at hst
    · exact absurd hi (hm.not_running hk (fun hi => hic (Option.some.inj (hi.symm.trans hc)))
        fun h => absurd h hne)
  | ticks user he hs hc =>
    have hnot (hi : k.cur ≠ some i) : (t.proc i).state ≠ .running :=
      hm.not_running hk hi fun h => absurd (he.symm.trans h) (by simp)
    rcases hc with ⟨hc, hst⟩ | ⟨c, hkc, htc, hst, -⟩
    · rw [hc]
      refine ⟨fun hi => ?_, by simp⟩
      by_cases hic : k.cur = some i
      · cases (hst i hic).symm.trans hi
      · exact absurd hi (hnot hic)
    · rw [htc]
      constructor
      · intro hi
        by_contra hic
        exact hnot (fun h => hic (hkc.symm.trans h)) hi
      · intro hi
        obtain rfl := Option.some.inj hi
        exact hst
  | returns c he hc hs =>
    have hnot (hi : k.cur ≠ some i) : (t.proc i).state ≠ .running :=
      hm.not_running hk hi fun h => absurd (he.symm.trans h) (by simp)
    rcases hs with ⟨-, hs, hst⟩ | ⟨-, hs, hst⟩
    · rw [hs.cur]
      refine ⟨fun hi => ?_, by simp⟩
      by_cases hic : i = c
      · subst hic
        rw [hi] at hst
        simp at hst
      · exact absurd hi (hnot fun hi => hic (Option.some.inj (hi.symm.trans hc)))
    · rw [hs.cur]
      refine ⟨fun hi => by_contra fun hic => hnot hic hi, fun hi => ?_⟩
      obtain rfl := Option.some.inj (hi.symm.trans hc)
      exact hst
  | idles _ hc hh hs =>
    rw [hs.cur, hc]
    refine ⟨fun hi => ?_, by simp⟩
    exact absurd hi (hm.not_running hk (fun h => absurd (hc.symm.trans h) (by simp))
      fun _ h => absurd (hh.symm.trans h) (by simp))
  | dispatches c he hc hh hs _ hst =>
    rw [hs.cur]
    constructor
    · intro hi
      by_contra hic
      exact hm.not_running hk (fun h => absurd (hc.symm.trans h) (by simp))
        (fun _ h => hic (hh.symm.trans h)) hi
    · intro hi
      obtain rfl := Option.some.inj hi
      exact hst

/-- `fork` begins. -/
theorem forking_fork {c₀ np₀ : Slot} {custom₀ : Option (Int × Int)} (hk : k.Wf)
    (hc : k.cur = some c₀) (hnp : (k.proc np₀).state = .unused)
    (ht : t = ({ k with nextpid := k.nextpid + 1 }.modify np₀ fun q =>
      { q with state := .embryo, pid := k.nextpid }).modify c₀ fun q =>
        { q with activity := .fork np₀ custom₀ false })
    (ha : (t.proc c).activity = .fork np custom b) : t.Forking c np b := by
  have hne : np₀ ≠ c₀ := by
    rintro rfl
    cases ((hk.running _).mpr hc).symm.trans hnp
  have hcontext (i : Slot) : (t.proc i).context = (k.proc i).context := by
    rw [ht, Kernel.modify_apply, Kernel.modify_apply]
    split <;> split <;> rfl
  have hparent (i : Slot) : (t.proc i).parent = (k.proc i).parent := by
    rw [ht, Kernel.modify_apply, Kernel.modify_apply]
    split <;> split <;> rfl
  have hcur : t.cur = k.cur := by rw [ht]; rfl
  have hstate (i : Slot) (hi : i ≠ np₀) : (t.proc i).state = (k.proc i).state := by
    rw [ht, Kernel.modify_apply, Kernel.modify_proc_of_ne hi]
    split <;> rfl
  have hnew : (t.proc np₀).state = .embryo := by
    rw [ht, Kernel.modify_proc_of_ne hne, Kernel.modify_proc]
  have hact (i : Slot) (hi : i ≠ c₀) : (t.proc i).activity = (k.proc i).activity := by
    rw [ht, Kernel.modify_proc_of_ne hi, Kernel.modify_apply]
    split <;> rfl
  have hact₀ : (t.proc c₀).activity = .fork np₀ custom₀ false := by rw [ht, Kernel.modify_proc]
  have hused {c custom b} (h : (k.proc c).activity = .fork np₀ custom b) : False :=
    (hk.fork c np₀ custom b h).used hnp
  by_cases hcc : c = c₀
  · subst hcc
    cases hact₀.symm.trans ha
    refine ⟨.inl (hcur.trans hc), hne.symm, by rw [hnew]; simp, fun _ => ⟨?_, ?_⟩, (by simp),
      fun c' custom b' hc' => by_contra fun hne' => ?_⟩
    · rw [hcontext]
      exact hk.unused _ hnp
    · rw [hcur, hc]
      exact fun h => hne (Option.some.inj h).symm
    · rw [hact c' hne'] at hc'
      exact hused hc'
  · rw [hact c hcc] at ha
    have hf := hk.fork c np custom b ha
    have hnp' : np ≠ np₀ := by
      rintro rfl
      exact hused ha
    refine ⟨?_, hf.ne, by rw [hstate _ hnp']; exact hf.used, fun hb => ?_, fun hb => ?_,
      fun c' custom' b' hc' => ?_⟩
    · rw [hcur, hcontext]
      exact hf.alive
    · rw [hcur, hcontext]
      exact hf.early hb
    · rw [hparent]
      exact hf.parent hb
    · by_cases hc₀ : c' = c₀
      · subst hc₀
        cases hact₀.symm.trans hc'
        exact absurd rfl hnp'
      · rw [hact c' hc₀] at hc'
        exact hf.unique c' custom' b' hc'

/-- `fork` has copied the parent. -/
theorem forking_forkCopy {c₀ np₀ : Slot} {custom₀ : Option (Int × Int)} (hk : k.Wf)
    (hc : k.cur = some c₀) (ha₀ : (k.proc c₀).activity = .fork np₀ custom₀ false)
    (ht : t = k.forkCopy c₀ np₀ custom₀) (ha : (t.proc c).activity = .fork np custom b) :
    t.Forking c np b := by
  have hf₀ := hk.fork c₀ np₀ custom₀ false ha₀
  have hcur : t.cur = k.cur := by rw [ht]; rfl
  have hflags (p : Proc) : (Kernel.copyFlags custom₀ p).state = p.state ∧
      (Kernel.copyFlags custom₀ p).parent = p.parent ∧
      (Kernel.copyFlags custom₀ p).activity = p.activity := by
    cases custom₀ <;> exact ⟨rfl, rfl, rfl⟩
  have hstate (i : Slot) : (t.proc i).state = (k.proc i).state := by
    rw [ht, Kernel.forkCopy, Kernel.modify_apply, Kernel.modify_apply]
    split <;> split <;> first | rfl | exact (hflags _).1
  have hother (i : Slot) (hi : i ≠ np₀) : (t.proc i).context = (k.proc i).context ∧
      (t.proc i).parent = (k.proc i).parent := by
    rw [ht, Kernel.forkCopy, Kernel.modify_apply, Kernel.modify_proc_of_ne hi]
    split <;> exact ⟨rfl, rfl⟩
  have hnew : (t.proc np₀).parent = some c₀ ∧ (t.proc np₀).activity = .none := by
    rw [ht, Kernel.forkCopy, Kernel.modify_proc_of_ne hf₀.ne.symm, Kernel.modify_proc]
    exact ⟨(hflags _).2.1, (hflags _).2.2⟩
  have hact (i : Slot) (hi : i ≠ c₀) (hi' : i ≠ np₀) :
      (t.proc i).activity = (k.proc i).activity := by
    rw [ht, Kernel.forkCopy, Kernel.modify_proc_of_ne hi, Kernel.modify_proc_of_ne hi']
  have hact₀ : (t.proc c₀).activity = .fork np₀ custom₀ true := by
    rw [ht, Kernel.forkCopy, Kernel.modify_proc]
  have hknown {i np custom b} (hi : i ≠ c₀) (h : (t.proc i).activity = .fork np custom b) :
      (k.proc i).activity = .fork np custom b := by
    by_cases hi' : i = np₀
    · subst hi'
      cases hnew.2.symm.trans h
    · exact (hact i hi hi').symm.trans h
  by_cases hcc : c = c₀
  · subst hcc
    cases hact₀.symm.trans ha
    refine ⟨.inl (hcur.trans hc), hf₀.ne, by rw [hstate]; exact hf₀.used, by simp, fun _ => hnew.1,
      fun c' custom b' hc' => by_contra fun hne => ?_⟩
    exact hne (hf₀.unique c' custom b' (hknown hne hc'))
  · have hka := hknown hcc ha
    have hf := hk.fork c np custom b hka
    have hnp : np ≠ np₀ := by
      rintro rfl
      exact hcc (hf₀.unique c custom b hka)
    have hcnp : c ≠ np₀ := by
      rintro rfl
      cases hnew.2.symm.trans ha
    refine ⟨?_, hf.ne, by rw [hstate]; exact hf.used, fun hb => ?_, fun hb => ?_,
      fun c' custom' b' hc' => ?_⟩
    · rw [hcur, (hother c hcnp).1]
      exact hf.alive
    · rw [hcur, (hother np hnp).1]
      exact hf.early hb
    · rw [(hother np hnp).2]
      exact hf.parent hb
    · by_cases hc₀ : c' = c₀
      · subst hc₀
        cases hact₀.symm.trans hc'
        exact absurd rfl hnp
      · exact hf.unique c' custom' b' (hknown hc₀ hc')

/-- A step of the scheduler that finds nothing to go on with stops the system. -/
theorem context_of_dispatched (h : Turn k .scheduler t) (hp : t.panicked = false)
    (hh : k.prioritise.highest = some i) : (k.proc i).context ≠ .none ∧ (k.proc i).context ≠ .exit := by
  cases h with
  | stays he => exact (he.elim id (by simp)).elim
  | asks he | panics he | returns _ he => cases he
  | leaves _ he => rcases he with he | he | ⟨_, he⟩ <;> cases he
  | ticks _ he => cases he
  | idles _ _ hh' => cases hh'.symm.trans hh
  | dispatches c _ _ hh' _ hx =>
    obtain rfl := Option.some.inj (hh'.symm.trans hh)
    rw [hp] at hx
    exact not_or.mp (hx.not.mp (by simp))

/-- The other steps leave what is being created alone. -/
theorem forking_step (hk : k.Wf) (h : k.step e = some t) (hp : t.panicked = false) (he : ¬e.Forks)
    (ha : (t.proc c).activity = .fork np custom b) : t.Forking c np b := by
  obtain ⟨hka, hend⟩ := step_activity hk he h ha
  have hf := hk.fork c np custom b hka
  have hfork : (k.proc c).activity.Forks := by
    rw [hka]
    exact trivial
  have hother {i : Slot} {custom' b'} (hi : (k.proc i).activity = .fork np custom' b')
      (hc : k.cur = some i) (he : e = .forkFail ∨ e = .forkFinish) : False :=
    hend ⟨hf.unique i custom' b' hi ▸ hc, he⟩
  have hkc {i : Slot} {x : Context} (hi : (k.proc i).context = x) (hx : x ≠ .none ∧ x ≠ .exit)
      (hs : (k.proc i).state = .unused ∨ (k.proc i).state = .zombie) : False := by
    rcases hs with hs | hs
    · exact hx.1 (hi.symm.trans (hk.unused i hs))
    · exact hx.2 (hi.symm.trans (hk.zombie i hs))
  have hm := step_move hk h c
  have hmn := step_move hk h np
  refine ⟨?_, hf.ne, ?_, fun hb => ⟨?_, fun hcur => ?_⟩, fun hb => ?_, fun c' custom' b' hc' =>
    hf.unique c' custom' b' (step_activity hk he h hc').1⟩
  · -- the parent is running, or has been preempted
    by_cases hrun : (t.proc c).state = .running
    · exact .inl ((running_step hk h c).mp hrun)
    refine .inr ?_
    rcases hf.alive with hc | hx
    · have hkr := (hk.running c).mpr hc
      cases hm with
      | roused h =>
        rcases h.state with hs | ⟨hs, -⟩
        · exact absurd (hs.trans hkr) hrun
        · rw [hkr] at hs
          simp at hs
      | allocated _ he' => exact absurd (he' ▸ trivial) he
      | failed _ _ he' hc' ha' | copied _ _ he' hc' ha' | finished _ _ he' hc' ha' =>
        obtain rfl := Option.some.inj (hc.symm.trans hc')
        exact absurd rfl (hk.fork _ _ _ _ ha').ne
      | started _ _ hp' | waited _ _ _ hp' => cases hkr.symm.trans hp'
      | reaped _ _ hp' => cases hkr.symm.trans hp'
      | slept _ _ _ _ _ hno | exited _ _ _ _ _ _ _ hno => exact absurd hfork hno
      | ran _ _ _ _ _ hq =>
        rcases hq with hq | hq
        · exact .inl (by rw [hq])
        · rw [hq] at ha
          cases ha
      | dispatched _ hc' => cases hc.symm.trans hc'
      | suspended _ _ _ hq =>
        rcases hq with ⟨hc', -⟩ | ⟨-, hq⟩
        · exact absurd hc hc'
        · exact .inr (by rw [hq])
      | gaveUp _ _ hq =>
        rcases hq with hq | hq
        · exact .inr (by rw [hq])
        · rw [hq] at hrun
          exact absurd hkr hrun
    · have hne : (k.proc c).context ≠ .none ∧ (k.proc c).context ≠ .exit := by
        rcases hx with hx | hx <;> rw [hx] <;> exact ⟨by simp, by simp⟩
      have keep (hq : (t.proc c).context = (k.proc c).context) :
          (t.proc c).context = .yield ∨ (t.proc c).context = .yield2 := by rwa [hq]
      cases hm with
      | roused h => exact keep h.context
      | allocated _ _ _ hq | failed _ _ _ _ _ hq | started _ _ _ hq => exact keep (by rw [hq])
      | waited _ _ _ _ hq => exact keep (by rw [hq]; rfl)
      | copied c' _ he' => exact absurd (he' ▸ trivial) he
      | finished _ _ _ _ _ hq => exact keep (by rw [hq, initChild_context])
      | slept _ _ _ _ _ hno | exited _ _ _ _ _ _ _ hno => exact absurd hfork hno
      | reaped _ _ hp' => exact (hkc rfl hne (.inr hp')).elim
      | ran _ _ _ _ _ hq =>
        rcases hq with hq | hq
        · exact .inl (by rw [hq])
        · rw [hq] at ha
          cases ha
      | dispatched _ _ _ _ _ hs => exact absurd hs hrun
      | suspended _ _ _ hq =>
        rcases hq with ⟨-, hq⟩ | ⟨-, hq⟩
        · exact keep (by rw [hq])
        · exact .inr (by rw [hq])
      | gaveUp _ hc' hq =>
        rcases hq with hq | hq
        · exact .inr (by rw [hq])
        · have hkr := (hk.running c).mpr hc'
          rw [hq] at hrun
          exact absurd hkr hrun
  · -- the child is not thrown away
    cases hmn with
    | roused h =>
      rcases h.state with hs | ⟨-, hs⟩
      · rw [hs]
        exact hf.used
      · rw [hs]
        simp
    | allocated _ _ _ hq | started _ _ _ hq =>
      rw [hq]
      simp
    | failed c' _ he' hc' ha' => exact (hother ha' hc' (.inl he')).elim
    | copied _ _ he' => exact absurd (he' ▸ trivial) he
    | finished c' _ he' hc' ha' => exact (hother ha' hc' (.inr he')).elim
    | slept _ _ _ hs | exited _ _ _ hs | dispatched _ _ _ _ _ hs =>
      rw [hs]
      simp
    | reaped he' hc' hp' _ =>
      subst he'
      cases b with
      | false => cases (hf.early rfl).1.symm.trans (hk.zombie np hp')
      | true => exact absurd hfork (not_forks_wait h (hc'.symm.trans (hf.parent rfl)))
    | waited _ _ _ _ hq =>
      rw [hq]
      exact hf.used
    | ran _ _ _ _ _ hq =>
      rcases hq with hq | hq
      · rw [hq]
        simp
      · rw [hq]
        exact hf.used
    | suspended _ _ _ hq =>
      rcases hq with ⟨-, hq⟩ | ⟨-, hq⟩ <;> rw [hq] <;> simp
    | gaveUp _ _ hq =>
      rcases hq with hq | hq
      · rw [hq]
        simp
      · rw [hq]
        exact hf.used
  · -- the child has nothing to run
    obtain ⟨hx, hcur⟩ := hf.early hb
    cases hmn with
    | roused h => rw [h.context, hx]
    | allocated _ _ _ hq | failed _ _ _ _ _ hq | started _ _ _ hq | waited _ _ _ _ hq =>
      rw [hq]
      exact hx
    | copied _ _ he' => exact absurd (he' ▸ trivial) he
    | finished _ _ _ _ _ hq => rw [hq, initChild_context, hx]
    | slept _ hc' | exited _ hc' | ran _ _ _ hc' | gaveUp _ hc' => exact absurd hc' hcur
    | reaped _ _ _ hq => rw [hq]
    | dispatched _ _ _ _ _ _ _ _ _ _ _ _ _ _ _ _ hq =>
      rcases hq with ⟨-, hq, -⟩ | ⟨hq, -⟩
      · exact absurd hx hq
      · rw [hq, hx]
    | suspended _ _ _ hq =>
      rcases hq with ⟨-, hq⟩ | ⟨hc', -⟩
      · rw [hq]
        exact hx
      · exact absurd hc' hcur
  · -- and does not run
    obtain ⟨hx, hkc⟩ := hf.early hb
    have := hmn.dispatched_of_running hk hkc ((running_step hk h np).mpr hcur)
    obtain ⟨rfl, hh, -⟩ := this
    exact (context_of_dispatched (step_turn hk h) hp hh).1 hx
  · -- the child keeps its parent
    have hpar := hf.parent hb
    cases hmn with
    | roused h' | slept _ _ h' | exited _ _ h' =>
      rcases h'.parent with hq | ⟨rfl, hq⟩
      · rw [hq, hpar]
      · exact absurd hfork (not_forks_exit h (hq.symm.trans hpar))
    | allocated _ _ _ hq | failed _ _ _ _ _ hq | started _ _ _ hq | waited _ _ _ _ hq =>
      rw [hq]
      exact hpar
    | copied _ _ he' => exact absurd (he' ▸ trivial) he
    | finished _ _ _ _ _ hq => rw [hq, initChild_parent, hpar]
    | reaped he' hc' _ _ =>
      subst he'
      exact absurd hfork (not_forks_wait h (hc'.symm.trans hpar))
    | ran _ _ _ _ _ hq => rcases hq with hq | hq <;> rw [hq] <;> exact hpar
    | dispatched _ _ _ _ _ _ _ _ _ _ _ _ _ hq => rw [hq, hpar]
    | suspended _ _ _ hq => rcases hq with ⟨-, hq⟩ | ⟨-, hq⟩ <;> rw [hq] <;> exact hpar
    | gaveUp _ _ hq => rcases hq with hq | hq <;> rw [hq] <;> exact hpar

theorem Kernel.Wf.step (hk : k.Wf) (h : k.step e = some t) (hp : t.panicked = false) : t.Wf where
  running := running_step hk h
  context i hi := by
    have hrun := (running_step hk h i).mpr hi
    have hm := step_move hk h i
    by_cases hc : k.cur = some i
    · exact hm.context_of_running hk hc hrun
    · obtain ⟨rfl, hh, -, hx⟩ := hm.dispatched_of_running hk hc hrun
      have hno := context_of_dispatched (step_turn hk h) hp hh
      rcases hx with ⟨hx, -⟩ | ⟨-, hx⟩
      · exact hx
      · exact absurd hx (not_or.mpr hno)
  unused i hi := by
    cases step_move hk h i with
    | roused h =>
      rcases h.state with hs | ⟨-, hs⟩
      · rw [h.context]
        exact hk.unused i (hs.symm.trans hi)
      · cases hs.symm.trans hi
    | allocated _ _ _ hq | started _ _ _ hq =>
      rw [hq] at hi
      cases hi
    | failed c custom _ _ ha hq =>
      rw [hq]
      exact ((hk.fork c i custom false ha).early rfl).1
    | copied c custom _ _ ha hs => exact absurd (hs.symm.trans hi) (hk.fork c i custom false ha).used
    | finished _ custom _ _ _ hq =>
      rw [hq] at hi
      rcases initChild_state k.ticks custom (k.proc i) with h | h <;>
        cases h.symm.trans hi
    | slept _ _ _ hs | exited _ _ _ hs | dispatched _ _ _ _ _ hs =>
      cases hs.symm.trans hi
    | reaped _ _ _ hq => rw [hq]
    | waited _ _ _ hp hq =>
      rw [hq] at hi
      cases hp.symm.trans hi
    | ran _ _ _ _ hp hq =>
      rcases hq with hq | hq <;> rw [hq] at hi
      · cases hi
      · cases hp.symm.trans hi
    | suspended _ _ _ hq =>
      rcases hq with ⟨-, hq⟩ | ⟨-, hq⟩ <;> rw [hq] at hi <;> cases hi
    | gaveUp _ hc hq =>
      rcases hq with hq | hq <;> rw [hq] at hi
      · cases hi
      · cases ((hk.running i).mpr hc).symm.trans hi
  zombie i hi := by
    cases step_move hk h i with
    | roused h =>
      rcases h.state with hs | ⟨-, hs⟩
      · rw [h.context]
        exact hk.zombie i (hs.symm.trans hi)
      · cases hs.symm.trans hi
    | allocated _ _ _ hq | failed _ _ _ _ _ hq | started _ _ _ hq | reaped _ _ _ hq =>
      rw [hq] at hi
      cases hi
    | copied c custom _ _ ha hs =>
      have hx := ((hk.fork c i custom false ha).early rfl).1
      cases hx.symm.trans (hk.zombie i (hs.symm.trans hi))
    | finished _ custom _ _ _ hq =>
      rw [hq] at hi
      rcases initChild_state k.ticks custom (k.proc i) with h | h <;>
        cases h.symm.trans hi
    | slept _ _ _ hs | dispatched _ _ _ _ _ hs => cases hs.symm.trans hi
    | exited _ _ _ _ hx => exact hx
    | waited _ _ _ hp hq =>
      rw [hq] at hi
      cases hp.symm.trans hi
    | ran _ _ _ _ hp hq =>
      rcases hq with hq | hq <;> rw [hq] at hi
      · cases hi
      · cases hp.symm.trans hi
    | suspended _ _ _ hq =>
      rcases hq with ⟨-, hq⟩ | ⟨-, hq⟩ <;> rw [hq] at hi <;> cases hi
    | gaveUp _ hc hq =>
      rcases hq with hq | hq <;> rw [hq] at hi
      · cases hi
      · cases ((hk.running i).mpr hc).symm.trans hi
  fork c np custom b ha := by
    obtain ⟨-, -, hperf⟩ := Kernel.step_some h
    by_cases he : e.Forks
    · cases e with
      | fork custom₀ =>
        obtain ⟨c₀, hc, -, -, rfl⟩ := Kernel.call_some hperf
        cases hf : k.find fun q => q.state = .unused with
        | none =>
          have hsame : k.allocproc c₀ custom₀ = k := by rw [Kernel.allocproc, hf]
          rw [hsame] at ha ⊢
          exact hk.fork c np custom b ha
        | some np₀ =>
          have hun : (k.proc np₀).state = .unused := by simpa using Kernel.find_some hf
          have hslot : k.allocproc c₀ custom₀ = ({ k with nextpid := k.nextpid + 1 }.modify np₀ fun q =>
              { q with state := .embryo, pid := k.nextpid }).modify c₀ fun q =>
                { q with activity := .fork np₀ custom₀ false } := by
            rw [Kernel.allocproc, hf]
          exact forking_fork hk hc hun hslot ha
      | forkCopy =>
        obtain ⟨c₀, np₀, custom₀, hc, ha₀, rfl⟩ := Kernel.goOnFork_some hperf
        exact forking_forkCopy hk hc ha₀ rfl ha
      | _ => exact he.elim
    · exact forking_step hk h hp he ha

theorem boot_proc (i : Slot) : (Kernel.boot.proc i).activity = .none ∧
    ((Kernel.boot.proc i).state = .runnable ∧ (Kernel.boot.proc i).context = .forkret ∨
      (Kernel.boot.proc i).state = .unused ∧ (Kernel.boot.proc i).context = .none) := by
  simp only [Kernel.boot]
  split
  · exact ⟨rfl, .inl ⟨rfl, rfl⟩⟩
  · exact ⟨rfl, .inr ⟨rfl, rfl⟩⟩

theorem wf_boot : Kernel.boot.Wf where
  running i := by
    refine ⟨fun h => ?_, by rintro ⟨⟩⟩
    rcases (boot_proc i).2 with ⟨hs, -⟩ | ⟨hs, -⟩ <;> cases hs.symm.trans h
  context _ := by rintro ⟨⟩
  unused i hi := by
    rcases (boot_proc i).2 with ⟨hs, -⟩ | ⟨-, hx⟩
    · cases hs.symm.trans hi
    · exact hx
  zombie i hi := by
    rcases (boot_proc i).2 with ⟨hs, -⟩ | ⟨hs, -⟩ <;> cases hs.symm.trans hi
  fork c np custom b ha := absurd ((boot_proc c).1.symm.trans ha) (by simp)

/-- The invariant holds until the system panics. -/
theorem Kernel.Reachable.wf (h : k.Reachable) (hp : k.panicked = false) : k.Wf :=
  Run.Reaches.invariant (I := fun k => k.panicked = false → k.Wf) h
    (fun _ _ _ hI hs hp => (hI (Kernel.step_some hs).1).step hs hp) (fun _ => wf_boot) hp

/-! ### Process numbers -/

@[simp] theorem initChild_pid {n : Nat} : (Kernel.initChild n custom p).pid = p.pid := by
  cases custom <;> rfl

/-- A process keeps its number, or its slot is given a new one or is free. -/
theorem Move.pid (hk : k.Wf) (h : Move k e i (k.proc i) q) :
    q.pid = (k.proc i).pid ∧
        (q.state ≠ .unused → (k.proc i).state ≠ .unused ∨ (k.proc i).pid ≠ 0) ∨
      (∃ custom, e = .fork custom) ∧ (k.proc i).state = .unused ∧ q.pid = k.nextpid ∨
      q.pid = 0 ∧ q.state = .unused := by
  cases h with
  | roused h =>
    refine .inl ⟨h.pid, fun hq => .inl fun hp => ?_⟩
    rcases h.state with hs | ⟨hs, -⟩
    · exact hq (hs.trans hp)
    · rw [hp] at hs
      simp at hs
  | allocated custom he hp hq => exact .inr (.inl ⟨⟨custom, he⟩, hp, by rw [hq]⟩)
  | failed _ _ _ _ _ hq => exact .inl ⟨by rw [hq], fun hs => absurd (by rw [hq]) hs⟩
  | copied _ _ _ _ _ hs _ _ _ _ _ _ _ _ _ hpid => exact .inl ⟨hpid, fun hq => .inl (hs ▸ hq)⟩
  | finished c custom _ _ ha hq =>
    exact .inl ⟨by rw [hq, initChild_pid], fun _ => .inl (hk.fork c i custom true ha).used⟩
  | started _ _ hp hq => exact .inl ⟨by rw [hq], fun _ => .inl (by rw [hp]; simp)⟩
  | waited _ _ _ hp hq => exact .inl ⟨by rw [hq]; rfl, fun _ => .inl (by rw [hp]; simp)⟩
  | slept _ hc h | exited _ hc h =>
    exact .inl ⟨h.pid, fun _ => .inl (by rw [(hk.running i).mpr hc]; simp)⟩
  | reaped _ _ _ hq => exact .inr (.inr ⟨by rw [hq], by rw [hq]⟩)
  | ran _ _ _ _ hp hq =>
    refine .inl ⟨?_, fun _ => .inl (by rw [hp]; simp)⟩
    rcases hq with hq | hq <;> rw [hq]
  | dispatched _ _ _ hp _ _ _ _ _ _ _ _ _ _ _ hpid =>
    exact .inl ⟨hpid, fun _ => .inl (by rw [hp]; simp)⟩
  | suspended _ _ hp hq =>
    refine .inl ⟨?_, fun _ => .inr hp.1⟩
    rcases hq with ⟨-, hq⟩ | ⟨-, hq⟩ <;> rw [hq]
  | gaveUp _ hc hq =>
    refine .inl ⟨?_, fun _ => .inl (by rw [(hk.running i).mpr hc]; simp)⟩
    rcases hq with hq | hq <;> rw [hq]

/-- A slot becomes free when `fork` gives it up or when `wait` reaps the process. -/
theorem Move.unused (h : Move k e i p q) (hp : p.state ≠ .unused) (hq : q.state = .unused) :
    (∃ c custom, (k.proc c).activity = .fork i custom false) ∨ q.pid = 0 ∧ p.state = .zombie := by
  cases h with
  | roused h =>
    rcases h.state with hs | ⟨-, hs⟩
    · exact absurd (hs.symm.trans hq) hp
    · cases hs.symm.trans hq
  | allocated _ _ hp' _ => exact absurd hp' hp
  | failed c custom _ _ ha _ => exact .inl ⟨c, custom, ha⟩
  | copied _ _ _ _ _ hs => exact absurd (hs.symm.trans hq) hp
  | finished _ custom _ _ _ h =>
    rw [h] at hq
    rcases initChild_state k.ticks custom p with h | h <;>
      cases h.symm.trans hq
  | started _ _ _ h =>
    rw [h] at hq
    cases hq
  | slept _ _ _ hs | exited _ _ _ hs | dispatched _ _ _ _ _ hs =>
    cases hs.symm.trans hq
  | reaped _ _ hz h => exact .inr ⟨by rw [h], hz⟩
  | waited _ _ _ hp' h =>
    rw [h] at hq
    exact absurd hq hp
  | ran _ _ _ _ _ h =>
    rcases h with h | h <;> rw [h] at hq
    · cases hq
    · exact absurd hq hp
  | suspended _ _ _ h =>
    rcases h with ⟨-, h⟩ | ⟨-, h⟩ <;> rw [h] at hq <;> cases hq
  | gaveUp _ _ h =>
    rcases h with h | h <;> rw [h] at hq
    · cases hq
    · exact absurd hq hp

theorem step_nextpid (hk : k.Wf) (h : k.step e = some t) : k.nextpid ≤ t.nextpid := by
  cases step_turn hk h with
  | stays _ hs => exact hs.nextpid
  | asks _ ht | panics _ ht => rw [ht]
  | leaves _ _ _ hs => exact hs.nextpid
  | ticks _ _ hs => exact hs.nextpid
  | returns _ _ _ hs =>
    rcases hs with ⟨-, hs, -⟩ | ⟨-, hs, -⟩ <;> exact hs.nextpid
  | idles _ _ _ hs => exact hs.nextpid
  | dispatches _ _ _ _ hs => exact hs.nextpid

/-- The number that `allocproc` has given is smaller than the next one. -/
theorem nextpid_of_allocated {custom : Option (Int × Int)} (h : k.step (.fork custom) = some t)
    (hq : (t.proc i).pid = k.nextpid) (hne : (k.proc i).pid ≠ k.nextpid) :
    t.nextpid = k.nextpid + 1 := by
  obtain ⟨-, -, h⟩ := Kernel.step_some h
  obtain ⟨c, hc, -, -, rfl⟩ := Kernel.call_some h
  rw [Kernel.allocproc] at hq ⊢
  cases hf : k.find fun q => q.state = .unused with
  | none =>
    rw [hf] at hq
    exact absurd hq hne
  | some np => rfl

structure Kernel.Numbered (k : Kernel) : Prop where
  next : 2 ≤ k.nextpid
  pid : ∀ i, 0 ≤ (k.proc i).pid ∧ (k.proc i).pid < k.nextpid
  used : ∀ i, (k.proc i).state ≠ .unused → (k.proc i).pid ≠ 0

theorem Kernel.Numbered.step (hk : k.Wf) (hn : k.Numbered) (h : k.step e = some t) : t.Numbered := by
  have hle := step_nextpid hk h
  refine ⟨hn.next.trans hle, fun i => ?_, fun i hi => ?_⟩
  · have hp := hn.pid i
    have := hn.next
    rcases (step_move hk h i).pid hk with ⟨hq, -⟩ | ⟨⟨custom, rfl⟩, -, hq⟩ | ⟨hq, -⟩
    · omega
    · have := nextpid_of_allocated h hq (by omega)
      omega
    · omega
  · have hp := hn.pid i
    have := hn.next
    rcases (step_move hk h i).pid hk with ⟨hq, hs⟩ | ⟨-, -, hq⟩ | ⟨-, hq⟩
    · rcases hs hi with hs | hs
      · have := hn.used i hs
        omega
      · omega
    · omega
    · exact absurd hq hi

theorem Kernel.Reachable.numbered (h : k.Reachable) (hp : k.panicked = false) : k.Numbered :=
  (Run.Reaches.invariant (I := fun k => k.panicked = false → k.Wf ∧ k.Numbered) h
    (fun _ _ _ hI hs hp =>
      have h := hI (Kernel.step_some hs).1
      ⟨h.1.step hs hp, h.2.step h.1 hs⟩)
    (fun _ => ⟨wf_boot, by
      refine ⟨Int.le_refl _, fun i => ?_, fun i hi => ?_⟩
      · simp only [Kernel.boot]
        split <;> decide
      · simp only [Kernel.boot] at hi ⊢
        split at hi
        · rename_i h0
          rw [if_pos h0]
          decide
        · exact absurd rfl hi⟩) hp).2

end Xv6.Jobs
