import AdvancedXv6.Locks.Step

/-! The steps that change the table of processes, and the switches between threads, keep the invariant. -/

namespace Xv6.Locks.Sys
open Function

variable {C : Type} [DecidableEq C] {s t : Sys C} {a a' : Thread C → Flow} {c d : C} {q r : Slot} {code rest : Code}
  {b : Flow} {k : Thread C} {i : Nat} {x : Instr} {ch : Chan}

section Rouse
variable (s : Sys C) (P : Proc → Bool) (q : Slot)

omit [DecidableEq C] in
theorem rouse_proc : (s.rouse P).proc q = s.proc q ∨ ((s.proc q).state = .sleeping ∧ P (s.proc q) = true ∧
    (s.rouse P).proc q = { s.proc q with state := .runnable }) := by
  unfold rouse
  dsimp only
  split
  · rename_i h
    exact .inr ⟨h.1, h.2, rfl⟩
  · exact .inl rfl

omit [DecidableEq C] in
theorem rouse_state : ((s.rouse P).proc q).state = (s.proc q).state ∨
    ((s.proc q).state = .sleeping ∧ ((s.rouse P).proc q).state = .runnable) := by
  rcases rouse_proc s P q with h | ⟨hs, -, h⟩
  · exact .inl (by rw [h])
  · exact .inr ⟨hs, by rw [h]⟩

omit [DecidableEq C] in
theorem rouse_same : ((s.rouse P).proc q).code = (s.proc q).code ∧ ((s.rouse P).proc q).chan = (s.proc q).chan ∧
    ((s.rouse P).proc q).pid = (s.proc q).pid ∧ ((s.rouse P).proc q).parent = (s.proc q).parent := by
  rcases rouse_proc s P q with h | ⟨-, -, h⟩ <;> simp [h]

omit [DecidableEq C] in
/-- Who still sleeps was not to be woken. -/
theorem rouse_sleeping (h : ((s.rouse P).proc q).state = .sleeping) : (s.proc q).state = .sleeping ∧ P (s.proc q) = false := by
  unfold rouse at h
  dsimp only at h
  split at h
  · exact ProcState.noConfusion h
  · rename_i hn
    exact ⟨h, Bool.eq_false_iff.mpr fun hp => hn ⟨h, hp⟩⟩

end Rouse

namespace Wf

/-- The thread on `c` goes on with `code`, and the table changes as `Fate` allows. -/
theorem table (h : Wf s a) (hcpu : t.cpu = (s.goto c code).cpu) (hlock : t.lock = s.lock) (hpanic : t.panic = s.panic)
    (htodo : t.todo (s.cur c) = code) (hb : a' (s.cur c) = b) (ha : ∀ k, k ≠ s.cur c → s.Live k → a' k = a k)
    (hflows : Flows code b) (hok : b.Ok) (hproc : b.proc = (a (s.cur c)).proc) (hextra : b.extra = (a (s.cur c)).extra)
    (hheld : b.held = (a (s.cur c)).held) (hnamed : b.named = (a (s.cur c)).named) (hfate : ∀ q, Fate s t a a' c q)
    (hkid : ∀ k r, r ∈ (a' k).kids → (t.proc r).state = .embryo)
    (hkids : ∀ k k' r, r ∈ (a' k).kids → r ∈ (a' k').kids → k = k') (hsleeps : Sleeps t a') (hpids : Pids t) :
    Wf t a' := by
  have hrun (d : C) : (t.cpu d).proc = (s.cpu d).proc := by rw [hcpu, goto_cpu_proc]
  have hcur (d : C) : t.cur d = s.cur d := by
    unfold cur
    rw [hrun]
  refine ⟨h.threads.change hrun (fun d hd => ⟨?_, ha _ hd trivial⟩) ?_ ?_ ?_ hfate hkid hkids, ?_, hsleeps, hpids,
    hpanic.trans h.panic⟩
  · rw [hcpu]
    exact (goes_goto s c code).others (.sched d) hd
  · rwa [htodo, hb]
  · rwa [hb]
  · rw [hb, hproc, h.threads.kind]
  · have hview : (fun d => a' (t.cur d)) = update (fun d => a (s.cur d)) c b := by
      funext d
      rw [hcur]
      by_cases hd : d = c
      · subst hd
        rw [update_self, hb]
      · rw [update_of_ne hd]
        exact ha _ (fun heq => hd (h.threads.cur_inj heq)) live_cur
    rw [hview, hlock, hcpu]
    refine h.spins.keep (fun d hd => goto_cpu_ne s c code hd) (goto_ncli ..) (fun hd => ?_) hextra hheld hnamed
    rw [goto_iflag]
    exact h.spins.masked c hd

omit [DecidableEq C] in
/-- The process that runs on `c`, when it has not changed its state. -/
theorem running_self (h : Wf s a) (hq : s.cur c = .proc q) (hn : (a (s.cur c)).parked = none) :
    (s.proc q).state = .running := by
  have := h.threads.shows c q (cur_eq_proc.mp hq)
  rwa [← hq, hn] at this

omit [DecidableEq C] in
theorem shows_used {p : Proc} {y : Option Parked} (h : p.Shows y) : p.state ≠ .unused := by
  intro hu
  rcases y with _ | _ | _ | _ <;> simp [Proc.Shows, hu] at h

/-- A thread that holds `ptable.lock` changes its own state, and makes sleeping processes run again. -/
theorem act (h : Wf s a) (hp : .ptable ∈ (a (s.cur c)).held) (hn : (a (s.cur c)).parked = none)
    (hflows : Flows rest b) (hok : b.Ok) (hproc : b.proc = (a (s.cur c)).proc)
    (hextra : b.extra = (a (s.cur c)).extra) (hheld : b.held = (a (s.cur c)).held)
    (hnamed : b.named = (a (s.cur c)).named) (hkids : b.kids ⊆ (a (s.cur c)).kids)
    (hcpu : t.cpu = (s.goto c rest).cpu) (hlock : t.lock = s.lock) (hpanic : t.panic = s.panic)
    (hnext : t.nextpid = s.nextpid) (hself : ∀ q, s.cur c = .proc q → (t.proc q).Shows b.parked)
    (hstate : ∀ q, .proc q ≠ s.cur c →
      (t.proc q).state = (s.proc q).state ∨ ((s.proc q).state = .sleeping ∧ (t.proc q).state = .runnable))
    (hcode : ∀ q, (t.proc q).code = ((s.goto c rest).proc q).code)
    (hchan : ∀ q, .proc q ≠ s.cur c → (t.proc q).chan = (s.proc q).chan)
    (hpid : ∀ q, (t.proc q).pid = (s.proc q).pid) (hsleeps : Sleeps t (update a (s.cur c) b)) :
    Wf t (update a (s.cur c) b) := by
  have hg := goes_goto s c rest
  have hkid (k : Thread C) := update_subset (a := a) Flow.kids hkids k
  refine h.table hcpu hlock hpanic ?_ (update_self ..) (fun k hk _ => update_of_ne hk ..) hflows hok hproc hextra hheld
    hnamed (fun q => ?_) (fun k r hr => ?_) (fun k k' r hr hr' => h.threads.kids k k' r (hkid k hr) (hkid k' hr')) hsleeps ?_
  · rw [← hg.todo]
    cases hc : s.cur c with
    | sched d => exact congrArg Cpu.sched (congrFun hcpu d)
    | proc q => exact hcode q
  · by_cases hq : .proc q = s.cur c
    · refine .self hq.symm ?_
      rw [hq, update_self]
      exact hself q hq.symm
    · have hcode : (t.proc q).code = (s.proc q).code := (hcode q).trans (hg.others _ hq)
      rcases hstate q hq with hs | hs
      · exact .same hs (hchan q hq) hcode (update_of_ne hq ..)
      · exact .roused hs.1 hs.2 (h.asleep_off hp hn hs.1) hcode (update_of_ne hq ..)
  · have he := h.threads.kid k r (hkid k hr)
    have hrc : .proc r ≠ s.cur c := fun heq => ProcState.noConfusion (he.symm.trans (h.running_self heq.symm hn))
    rcases hstate r hrc with hs | hs
    · exact hs.trans he
    · exact ProcState.noConfusion (hs.1.symm.trans he)
  · refine h.pids.congr (fun q => ?_) hpid hnext
    by_cases hq : .proc q = s.cur c
    · refine iff_of_false (shows_used (hself q hq.symm)) fun hu => ?_
      exact ProcState.noConfusion (hu.symm.trans (h.running_self hq.symm hn))
    · rcases hstate q hq with hs | hs
      · rw [hs]
      · rw [hs.1, hs.2]
        simp

/-- Sleeping processes are made to run again by a thread that holds `ptable.lock`. -/
theorem rouse (h : Wf s a) (hp : .ptable ∈ (a (s.cur c)).held) (hn : (a (s.cur c)).parked = none)
    (hflows : Flows rest b) (hok : b.Ok) (hproc : b.proc = (a (s.cur c)).proc) (hparked : b.parked = none)
    (hextra : b.extra = (a (s.cur c)).extra) (hheld : b.held = (a (s.cur c)).held)
    (hnamed : b.named = (a (s.cur c)).named) (hkids : b.kids = (a (s.cur c)).kids)
    (hcpu : t.cpu = (s.goto c rest).cpu) (hlock : t.lock = s.lock) (hpanic : t.panic = s.panic)
    (hnext : t.nextpid = s.nextpid)
    (hstate : ∀ q, (t.proc q).state = (s.proc q).state ∨ ((s.proc q).state = .sleeping ∧ (t.proc q).state = .runnable))
    (hcode : ∀ q, (t.proc q).code = ((s.goto c rest).proc q).code) (hchan : ∀ q, (t.proc q).chan = (s.proc q).chan)
    (hpid : ∀ q, (t.proc q).pid = (s.proc q).pid) (hsleeps : Sleeps t (update a (s.cur c) b)) :
    Wf t (update a (s.cur c) b) := by
  refine h.act hp hn hflows hok hproc hextra hheld hnamed hkids.subset hcpu hlock hpanic hnext (fun q hq => ?_)
    (fun q _ => hstate q) hcode (fun q _ => hchan q) hpid hsleeps
  have hrun := h.running_self hq hn
  rw [hparked]
  rcases hstate q with hs | hs
  · exact hs.trans hrun
  · exact ProcState.noConfusion (hs.1.symm.trans hrun)

theorem wakeup1 (h : Wf s a) (hcode : s.code c = .wakeup1 ch :: rest) : ∃ a', Wf (s.instr c rest (.wakeup1 ch)) a' := by
  obtain ⟨⟨-, hp, hbound⟩, hrest⟩ := h.flows hcode
  have hn := h.parked_none hcode Instr.noConfusion
  have hok := (h.threads.ok _).next (h.flows hcode).1
  have hsame (q : Slot) := rouse_same (s.goto c rest) (fun p => p.chan = some ch) q
  have hcur (d : C) : (s.instr c rest (.wakeup1 ch)).cur d = s.cur d := (goes_goto s c rest).cur d
  have hview (d : C) : update a (s.cur c) ((Instr.wakeup1 ch).next (a (s.cur c))) ((s.instr c rest (.wakeup1 ch)).cur d) =
      update (fun d => a (s.cur d)) c ((Instr.wakeup1 ch).next (a (s.cur c))) d := by
    rw [hcur, h.threads.update_cur]
  have hsleep : (s.instr c rest (.wakeup1 ch)).sleep = s.sleep := goto_sleep ..
  -- what is owed is paid for the processes that are woken only
  have hpay {i : Nat} (hi : ch.lock? ≠ some i) (hw : (s.sleep i).locked = true ∨ ∃ d, (a (s.cur d)).owes = some i) :
      (s.sleep i).locked = true ∨
        ∃ d, (update (fun d => a (s.cur d)) c ((Instr.wakeup1 ch).next (a (s.cur c))) d).owes = some i := by
    refine hw.imp id fun hd => ?_
    obtain ⟨d, hd⟩ := hd
    refine ⟨d, ?_⟩
    by_cases hdc : d = c
    · subst hdc
      have hne : (a (s.cur d)).owes ≠ ch.lock? := fun heq => hi (heq.symm.trans hd)
      rw [update_self]
      exact (if_neg hne).trans hd
    · rwa [update_of_ne hdc]
  refine ⟨_, h.rouse hp hn (hrest.resolve_left id) hok rfl hn rfl rfl rfl rfl rfl (goto_lock ..) (goto_panic ..)
    (goto_nextpid ..) (fun q => ?_) (fun q => (hsame q).1) (fun q => (hsame q).2.1.trans (goto_chan ..))
    (fun q => (hsame q).2.2.1.trans (goto_pid ..)) ?_⟩
  · have := rouse_state (s.goto c rest) (fun p => p.chan = some ch) q
    rwa [goto_state] at this
  constructor
  · intro k j hj
    have hsub : ((Instr.wakeup1 ch).next (a (s.cur c))).owns ⊆ (a (s.cur c)).owns := subset_rfl
    obtain ⟨q, hq, hs⟩ := h.sleeps.owns k j (update_subset Flow.owns hsub k hj)
    exact ⟨q, hq, by rw [hsleep, hs, show ((s.instr c rest (.wakeup1 ch)).proc q).pid = _ from (hsame q).2.2.1, goto_pid]⟩
  · intro d j hj
    rw [hview] at hj
    rw [hsleep]
    apply h.sleeps.free d j
    by_cases hd : d = c
    · subst hd
      rwa [update_self] at hj
    · rwa [update_of_ne hd] at hj
  · intro q j hq hch
    obtain ⟨hs, hpq⟩ := rouse_sleeping (s.goto c rest) (fun p => p.chan = some ch) q hq
    rw [goto_state] at hs
    have hch : (s.proc q).chan = some (.sleeplock j) := by
      rw [← goto_chan s c rest, ← (hsame q).2.1]
      exact hch
    simp only [hview, hsleep]
    apply hpay _ (h.sleeps.sleeper q j hs hch)
    intro heq
    have hch' : ch = .sleeplock j := by
      cases ch <;> simp_all [Chan.lock?]
    rw [goto_chan, hch, hch'] at hpq
    simp at hpq
  · intro d j hj
    rw [hview] at hj
    simp only [hview, hsleep]
    by_cases hd : d = c
    · subst hd
      rw [update_self] at hj
      exact absurd (hj.symm.trans hbound) (Option.some_ne_none j)
    · rw [update_of_ne hd] at hj
      rcases h.sleeps.bound d j hj with hl | ⟨e, he⟩
      · exact .inl hl
      refine .inr ⟨e, ?_⟩
      have hec : e ≠ c := by
        rintro rfl
        -- the thread on `d` holds one of the two locks that `c` holds
        rcases (h.threads.ok _).bound j hj with hl | hl
        · exact hd (h.spins.holds.unique hl ((h.threads.ok _).owes j he))
        · exact hd (h.spins.holds.unique hl hp)
      rwa [update_of_ne hec]

theorem killLoop (h : Wf s a) {pid : Nat} (hcode : s.code c = .killLoop pid :: rest) :
    Wf (s.instr c rest (.killLoop pid)) a := by
  obtain ⟨⟨-, hp⟩, hrest⟩ := h.flows hcode
  have hn := h.parked_none hcode Instr.noConfusion
  simp only [instr]
  cases hf : (s.goto c rest).find fun p => decide (p.pid = pid) with
  | none => exact h.pass hcode id rfl
  | some q =>
    dsimp only
    have hg := goes_goto s c rest
    generalize hu : (s.goto c rest).setProc q { (s.goto c rest).proc q with
      killed := true
      state := if ((s.goto c rest).proc q).state = .sleeping then .runnable else ((s.goto c rest).proc q).state } = t
    have hsame (r : Slot) : (t.proc r).code = ((s.goto c rest).proc r).code ∧ (t.proc r).chan = (s.proc r).chan ∧
        (t.proc r).pid = (s.proc r).pid ∧ ((t.proc r).state = (s.proc r).state ∨
          ((s.proc r).state = .sleeping ∧ (t.proc r).state = .runnable)) := by
      rw [← hu]
      by_cases hr : r = q
      · subst hr
        simp only [setProc, update_self, goto_state, goto_chan, goto_pid, true_and]
        split
        · rename_i hs
          exact .inr ⟨hs, rfl⟩
        · exact .inl rfl
      · simp [setProc, hr]
    have hcur (d : C) : t.cur d = s.cur d := by
      rw [← hu]
      exact hg.cur d
    have hsleeps : Sleeps t a := by
      apply h.sleeps.keep
      · rw [← hu]
        exact goto_sleep ..
      · exact fun k => subset_rfl
      · exact fun r _ _ => (hsame r).2.2.1
      · exact fun d i hi => by rwa [hcur] at hi
      · exact fun d => by rw [hcur]
      · exact fun d i hi => by rwa [hcur] at hi
      · intro r i hr hch
        refine .inl ⟨?_, (hsame r).2.1.symm.trans hch⟩
        rcases (hsame r).2.2.2 with hs | hs
        · exact hs.symm.trans hr
        · exact hs.1
    have := h.rouse (t := t) (b := a (s.cur c)) hp hn (hrest.resolve_left id) (h.threads.ok _) rfl hn rfl rfl rfl rfl
      (by rw [← hu]; rfl) (by rw [← hu]; exact goto_lock ..) (by rw [← hu]; exact goto_panic ..)
      (by rw [← hu]; exact goto_nextpid ..) (fun r => (hsame r).2.2.2) (fun r => (hsame r).1) (fun r => (hsame r).2.1)
      (fun r => (hsame r).2.2.1) (by rwa [update_eq_self])
    rwa [update_eq_self] at this

/-- What a process does to its own entry of the table. -/
theorem self (h : Wf s a) (hq : (s.cpu c).proc = some q) {y : Proc} (hp : .ptable ∈ (a (s.cur c)).held)
    (hn : (a (s.cur c)).parked = none) (hflows : Flows rest b) (hok : b.Ok) (hproc : b.proc = (a (s.cur c)).proc)
    (hextra : b.extra = (a (s.cur c)).extra) (hheld : b.held = (a (s.cur c)).held)
    (hnamed : b.named = (a (s.cur c)).named) (hkids : b.kids = (a (s.cur c)).kids) (howns : b.owns = (a (s.cur c)).owns)
    (hfree : b.free = (a (s.cur c)).free) (howes : b.owes = (a (s.cur c)).owes)
    (hbound : b.bound = (a (s.cur c)).bound ∨ b.bound = none) (hcode : y.code = ((s.goto c rest).proc q).code)
    (hpid : y.pid = (s.proc q).pid) (hshows : y.Shows b.parked)
    (hsleeper : ∀ i, y.state = .sleeping → y.chan = some (.sleeplock i) → (a (s.cur c)).bound = some i) :
    Wf ((s.goto c rest).setProc q y) (update a (s.cur c) b) := by
  have hcq := cur_proc hq
  have hne {r : Slot} (hr : .proc r ≠ s.cur c) : r ≠ q := fun heq => hr (heq ▸ hcq.symm)
  have hother {r : Slot} (hr : r ≠ q) : ((s.goto c rest).setProc q y).proc r = (s.goto c rest).proc r := by
    simp [setProc, hr]
  have hme : ((s.goto c rest).setProc q y).proc q = y := by simp [setProc]
  have hpids (r : Slot) : (((s.goto c rest).setProc q y).proc r).pid = (s.proc r).pid := by
    by_cases hr : r = q
    · rw [hr, hme, hpid]
    · rw [hother hr, goto_pid]
  have hcur (d : C) : ((s.goto c rest).setProc q y).cur d = s.cur d := (goes_goto s c rest).cur d
  have hview (d : C) : update a (s.cur c) b (((s.goto c rest).setProc q y).cur d) =
      update (fun d => a (s.cur d)) c b d := by
    rw [hcur, h.threads.update_cur]
  refine h.act hp hn hflows hok hproc hextra hheld hnamed hkids.subset rfl (goto_lock ..) (goto_panic ..)
    (goto_nextpid ..) (fun r hr => ?_) (fun r hr => ?_) (fun r => ?_) (fun r hr => ?_) hpids ?_
  · have hrq : r = q := Thread.proc.inj (hr.symm.trans hcq)
    rwa [hrq, hme]
  · rw [hother (hne hr), goto_state]
    exact .inl rfl
  · by_cases hr : r = q
    · rw [hr, hme, hcode]
    · rw [hother hr]
  · rw [hother (hne hr), goto_chan]
  · refine h.sleeps.turn hview (goto_sleep ..) (update_subset Flow.owns howns.subset) (fun r _ _ => hpids r) (.inl hfree)
      howes hbound fun r i hr hch => ?_
    by_cases hrq : r = q
    · rw [hrq, hme] at hr hch
      exact .inr ⟨c, hsleeper i hr hch⟩
    · rw [hother hrq, goto_state] at hr
      rw [hother hrq, goto_chan] at hch
      exact .inl ⟨hr, hch⟩

omit [DecidableEq C] in
theorem table_held {S : Finset Lock} {o : Option Nat} (h : b.Ends (insert .ptable S) o) : .ptable ∈ b.held := by
  rw [h.2.1]
  exact Finset.mem_insert_self ..

theorem stand (h : Wf s a) (hcode : s.code c = .stand :: rest) : ∃ a', Wf (s.instr c rest .stand) a' := by
  obtain ⟨⟨-, honly, hproc⟩, hrest⟩ := h.flows hcode
  obtain ⟨q, hq⟩ := h.proc hproc
  simp only [instr, withProc, hq]
  exact ⟨_, h.self (y := { (s.goto c rest).proc q with state := .runnable }) hq (table_held (S := ∅) honly)
    (h.parked_none hcode Instr.noConfusion) (hrest.resolve_left id) ((h.threads.ok _).next (h.flows hcode).1) rfl rfl
    rfl rfl rfl rfl rfl rfl (.inl rfl) rfl (goto_pid ..) rfl fun i hs => ProcState.noConfusion hs⟩

theorem doze (h : Wf s a) (hcode : s.code c = .doze ch :: rest) : ∃ a', Wf (s.instr c rest (.doze ch)) a' := by
  obtain ⟨⟨-, hends, hproc⟩, hrest⟩ := h.flows hcode
  obtain ⟨q, hq⟩ := h.proc hproc
  simp only [instr, withProc, hq]
  refine ⟨_, h.self (y := { (s.goto c rest).proc q with chan := some ch, state := .sleeping }) hq
    (table_held (S := ∅) hends) (h.parked_none hcode Instr.noConfusion) (hrest.resolve_left id)
    ((h.threads.ok _).next (h.flows hcode).1) rfl rfl rfl rfl rfl rfl rfl rfl (.inr rfl) rfl (goto_pid ..)
    ⟨rfl, rfl⟩ fun i _ hch => ?_⟩
  have hb := hends.2.2.2.2.2
  rw [Option.some.inj hch] at hb
  exact hb

theorem tidy (h : Wf s a) (hcode : s.code c = .tidy :: rest) : ∃ a', Wf (s.instr c rest .tidy) a' := by
  obtain ⟨⟨-, hp, hproc⟩, hrest⟩ := h.flows hcode
  have hn := h.parked_none hcode Instr.noConfusion
  obtain ⟨q, hq⟩ := h.proc hproc
  have hrun := h.running_self (cur_proc hq) hn
  simp only [instr, withProc, hq]
  refine ⟨_, h.self (y := { (s.goto c rest).proc q with chan := none }) hq hp hn (hrest.resolve_left id)
    (h.threads.ok _) rfl rfl rfl rfl rfl rfl rfl rfl (.inl rfl) rfl (goto_pid ..) ?_ fun i hs => ?_⟩
  · show Proc.Shows _ (a (s.cur c)).parked
    rw [hn]
    exact (goto_state ..).trans hrun
  · rw [goto_state, hrun] at hs
    exact ProcState.noConfusion hs

/-- Processes are woken, and nothing else of them changes that the invariant reads. -/
def Wakes (p p' : Proc) : Prop := p'.code = p.code ∧ p'.chan = p.chan ∧ p'.pid = p.pid ∧
  (p'.state = p.state ∨ (p.state = .sleeping ∧ p'.state = .runnable))

omit [DecidableEq C] in
theorem wakes_rouse (u : Sys C) (P : Proc → Bool) (r : Slot) : Wakes (u.proc r) ((u.rouse P).proc r) :=
  ⟨(rouse_same u P r).1, (rouse_same u P r).2.1, (rouse_same u P r).2.2.1, rouse_state u P r⟩

omit [DecidableEq C] in
theorem Wakes.trans {p p' p'' : Proc} (h : Wakes p p') (h' : Wakes p' p'') : Wakes p p'' := by
  obtain ⟨hcode, hchan, hpid, hstate⟩ := h
  obtain ⟨hcode', hchan', hpid', hstate'⟩ := h'
  refine ⟨hcode'.trans hcode, hchan'.trans hchan, hpid'.trans hpid, ?_⟩
  rcases hstate with hs | hs
  · rwa [hs] at hstate'
  · rcases hstate' with hs' | hs'
    · exact .inr ⟨hs.1, hs'.trans hs.2⟩
    · exact ProcState.noConfusion (hs.2.symm.trans hs'.1)

omit [DecidableEq C] in
theorem leave_proc (u : Sys C) (q r : Slot) : ((u.leave q).proc r).code = (u.proc r).code ∧
    ((u.leave q).proc r).chan = (u.proc r).chan ∧ ((u.leave q).proc r).pid = (u.proc r).pid ∧
    (r = q → ((u.leave q).proc r).state = .zombie) ∧ (r ≠ q → ((u.leave q).proc r).state = (u.proc r).state ∨
      ((u.proc r).state = .sleeping ∧ ((u.leave q).proc r).state = .runnable)) := by
  have hset {v : Sys C} (hv : Wakes (u.proc r) (v.proc r)) :
      ((v.setState q .zombie).proc r).code = (u.proc r).code ∧
      ((v.setState q .zombie).proc r).chan = (u.proc r).chan ∧ ((v.setState q .zombie).proc r).pid = (u.proc r).pid ∧
      (r = q → ((v.setState q .zombie).proc r).state = .zombie) ∧
      (r ≠ q → ((v.setState q .zombie).proc r).state = (u.proc r).state ∨
        ((u.proc r).state = .sleeping ∧ ((v.setState q .zombie).proc r).state = .runnable)) := by
    obtain ⟨hcode, hchan, hpid, hstate⟩ := hv
    by_cases hr : r = q
    · subst hr
      simp [setState, setProc, hcode, hchan, hpid]
    · simp [setState, setProc, hr, hcode, hchan, hpid, hstate]
  have hadopt {v : Sys C} (hv : Wakes (u.proc r) (v.proc r)) (f : Proc → Proc)
      (hf : ∀ p, Wakes p (f p)) : Wakes (u.proc r) (({ v with proc := fun r => f (v.proc r) } : Sys C).proc r) :=
    hv.trans (hf _)
  unfold Sys.leave
  dsimp only
  have h₂ := hadopt (wakes_rouse u (fun p => p.chan = (u.proc q).parent.map Chan.proc) r)
    (fun p => if p.parent = some q then { p with parent := some u.initproc } else p) fun p => by
      unfold Wakes
      split <;> simp
  split
  · exact hset (h₂.trans (wakes_rouse ..))
  · exact hset h₂

omit [DecidableEq C] in
theorem leave_rest (u : Sys C) (q : Slot) : (u.leave q).cpu = u.cpu ∧ (u.leave q).lock = u.lock ∧
    (u.leave q).sleep = u.sleep ∧ (u.leave q).panic = u.panic ∧ (u.leave q).nextpid = u.nextpid := by
  unfold Sys.leave
  dsimp only
  split <;> exact ⟨rfl, rfl, rfl, rfl, rfl⟩

theorem leave (h : Wf s a) (hcode : s.code c = .leave :: rest) : ∃ a', Wf (s.instr c rest .leave) a' := by
  obtain ⟨⟨-, honly, hproc⟩, hrest⟩ := h.flows hcode
  have hn := h.parked_none hcode Instr.noConfusion
  obtain ⟨q, hq⟩ := h.proc hproc
  obtain ⟨hcpu, hlock, hsleep, hpanic, hnext⟩ := leave_rest (s.goto c rest) q
  have hl := leave_proc (s.goto c rest) q
  simp only [instr, withProc, hq]
  have hcur (d : C) : ((s.goto c rest).leave q).cur d = s.cur d := by
    unfold cur
    rw [hcpu, goto_cpu_proc]
  have hview (d : C) : update a (s.cur c) (Instr.leave.next (a (s.cur c))) (((s.goto c rest).leave q).cur d) =
      update (fun d => a (s.cur d)) c (Instr.leave.next (a (s.cur c))) d := by
    rw [hcur, h.threads.update_cur]
  have hpid (r : Slot) : (((s.goto c rest).leave q).proc r).pid = (s.proc r).pid := (hl r).2.2.1.trans (goto_pid ..)
  refine ⟨_, h.act (table_held (S := ∅) honly) hn (hrest.resolve_left id) ((h.threads.ok _).next (h.flows hcode).1) rfl
    rfl rfl rfl (Finset.empty_subset _) hcpu (hlock.trans (goto_lock ..)) (hpanic.trans (goto_panic ..))
    (hnext.trans (goto_nextpid ..)) (fun r hr => ?_) (fun r hr => ?_) (fun r => (hl r).1)
    (fun r _ => (hl r).2.1.trans (goto_chan ..)) hpid ?_⟩
  · have hrq : r = q := Thread.proc.inj (hr.symm.trans (cur_proc hq))
    exact (hl r).2.2.2.1 hrq
  · have hrq : r ≠ q := fun heq => hr (heq ▸ (cur_proc hq).symm)
    have := (hl r).2.2.2.2 hrq
    rwa [goto_state] at this
  · refine h.sleeps.turn hview (hsleep.trans (goto_sleep ..)) (update_subset Flow.owns (Finset.empty_subset _))
      (fun r _ _ => hpid r) (.inl rfl) rfl (.inl rfl) fun r i hr hch => ?_
    by_cases hrq : r = q
    · exact ProcState.noConfusion (hr.symm.trans ((hl r).2.2.2.1 hrq))
    · refine .inl ⟨?_, ?_⟩
      · rcases (hl r).2.2.2.2 hrq with hs | hs
        · rw [← goto_state s c rest, ← hs, hr]
        · rw [← goto_state s c rest, hs.1]
      · rw [← goto_chan s c rest, ← (hl r).2.1, hch]

/-! ### Slots that are given out and back -/

omit [DecidableEq C] in
theorem not_live_of (h : Wf s a) (hs : (s.proc q).state = .unused ∨ (s.proc q).state = .embryo) : ¬s.Live (.proc q) := by
  rintro (hl | hl | ⟨d, hd⟩)
  · rcases hs with hs | hs <;> exact ProcState.noConfusion (hs.symm.trans hl)
  · rcases hs with hs | hs <;> exact ProcState.noConfusion (hs.symm.trans hl)
  · have hshows := h.threads.shows d q hd
    rcases hs with hs | hs <;> rcases hp : (a (.proc q)).parked with _ | _ | _ | _ <;>
      simp [hp, Proc.Shows, hs] at hshows

omit [DecidableEq C] in
theorem pids_fewer (h : Wf s a) (hu : ∀ q, (t.proc q).state ≠ .unused → (s.proc q).state ≠ .unused ∧
    (t.proc q).pid = (s.proc q).pid) (hnext : t.nextpid = s.nextpid) : Pids t := by
  constructor
  · intro q hq
    obtain ⟨hs, hp⟩ := hu q hq
    rw [hp, hnext]
    exact h.pids.used q hs
  · intro q r hq hr heq
    obtain ⟨hs, hp⟩ := hu q hq
    obtain ⟨hs', hp'⟩ := hu r hr
    exact h.pids.inj q r hs hs' (hp.symm.trans (heq.trans hp'))

/-- A slot that no thread stands for changes. -/
theorem slot (h : Wf s a) {y : Proc} {n : Nat} {e : Flow} (hr : ¬s.Live (.proc r)) (hflows : Flows code b) (hok : b.Ok)
    (hproc : b.proc = (a (s.cur c)).proc) (hparked : b.parked = (a (s.cur c)).parked)
    (hextra : b.extra = (a (s.cur c)).extra) (hheld : b.held = (a (s.cur c)).held)
    (hnamed : b.named = (a (s.cur c)).named) (howns : b.owns = (a (s.cur c)).owns)
    (hfree : b.free = (a (s.cur c)).free) (howes : b.owes = (a (s.cur c)).owes) (hbound : b.bound = (a (s.cur c)).bound)
    (ht : t = { (s.goto c code).setProc r y with nextpid := n }) (ha' : a' = update (update a (s.cur c) b) (.proc r) e)
    (he : e.owns = ∅) (hy : y.state ≠ .sleeping) (hfate : Fate s t a a' c r)
    (hkid : ∀ k q, q ∈ (a' k).kids → (t.proc q).state = .embryo)
    (hkids : ∀ k k' q, q ∈ (a' k).kids → q ∈ (a' k').kids → k = k') (hpids : Pids t) : Wf t a' := by
  have hg := goes_goto s c code
  have hcr : .proc r ≠ s.cur c := fun heq => hr (heq ▸ live_cur)
  have hb : a' (s.cur c) = b := by rw [ha', update_of_ne hcr.symm, update_self]
  have ha {k : Thread C} (hk : k ≠ s.cur c) (hkr : k ≠ .proc r) : a' k = a k := by
    rw [ha', update_of_ne hkr, update_of_ne hk]
  have hlive {k : Thread C} (hk : s.Live k) : k ≠ .proc r := fun heq => hr (heq ▸ hk)
  have hother {q : Slot} (hq : q ≠ r) : t.proc q = (s.goto c code).proc q := by
    rw [ht]
    simp [setProc, hq]
  have hme : t.proc r = y := by
    rw [ht]
    simp [setProc]
  have hcpu : t.cpu = (s.goto c code).cpu := by rw [ht]; rfl
  have hcur (d : C) : t.cur d = s.cur d := by
    unfold cur
    rw [hcpu, goto_cpu_proc]
  have hview (d : C) : a' (t.cur d) = update (fun d => a (s.cur d)) c b d := by
    rw [hcur]
    by_cases hd : d = c
    · subst hd
      rw [update_self, hb]
    · rw [update_of_ne hd]
      exact ha (fun heq => hd (h.threads.cur_inj heq)) (hlive live_cur)
  refine h.table hcpu (by rw [ht]; exact goto_lock ..) (by rw [ht]; exact goto_panic ..) ?_ hb
    (fun k hk hl => ha hk (hlive hl)) hflows hok hproc hextra hheld hnamed (fun q => ?_) hkid hkids ?_ hpids
  · rw [← hg.todo]
    cases hc : s.cur c with
    | sched d => exact congrArg Cpu.sched (congrFun hcpu d)
    | proc q =>
      rw [hc] at hcr
      exact congrArg Proc.code (hother fun heq => hcr (heq ▸ rfl))
  · by_cases hqr : q = r
    · exact hqr ▸ hfate
    by_cases hq : .proc q = s.cur c
    · refine .self hq.symm ?_
      rw [hother hqr, hq, hb, hparked, Proc.shows_congr (hg.state q) (hg.chan q), ← hq]
      exact h.threads.shows c q (cur_eq_proc.mp hq.symm)
    · refine .same ?_ ?_ ?_ (ha hq fun heq => hqr (Thread.proc.inj heq))
      · rw [hother hqr, goto_state]
      · rw [hother hqr, goto_chan]
      · rw [hother hqr]
        exact hg.others _ hq
  · refine h.sleeps.turn hview (by rw [ht]; exact goto_sleep ..) (fun k => ?_) (fun q i hi => ?_) (.inl hfree) howes
      (.inl hbound) fun q i hq hch => ?_
    · by_cases hkr : k = .proc r
      · rw [hkr, ha', update_self, he]
        exact Finset.empty_subset _
      by_cases hk : k = s.cur c
      · rw [hk, hb, howns]
      · rw [ha hk hkr]
    · have hqr : q ≠ r := by
        rintro rfl
        rw [ha', update_self, he] at hi
        exact Finset.notMem_empty i hi
      rw [hother hqr, goto_pid]
    · have hqr : q ≠ r := by
        rintro rfl
        rw [hme] at hq
        exact hy hq
      rw [hother hqr, goto_state] at hq
      rw [hother hqr, goto_chan] at hch
      exact .inl ⟨hq, hch⟩

/-- The flow of a child that has not run. -/
def fresh : Flow := ⟨true, 0, {.ptable}, {.ptable}, none, ∅, ∅, none, none, none⟩

theorem ready (h : Wf s a) (hcode : s.code c = .ready r :: rest) : ∃ a', Wf (s.instr c rest (.ready r)) a' := by
  obtain ⟨⟨-, hkid, hp⟩, hrest⟩ := h.flows hcode
  have he := h.threads.kid _ r hkid
  have hr := h.not_live_of (.inr he)
  have hme : (s.instr c rest (.ready r)).proc r = { s.proc r with state := .runnable, code := forkret } := by
    simp [instr, setProc]
  have hother {q : Slot} (hq : q ≠ r) : (s.instr c rest (.ready r)).proc q = (s.goto c rest).proc q := by
    simp [instr, setProc, hq]
  have hcr : .proc r ≠ s.cur c := fun heq => hr (heq ▸ live_cur)
  -- no thread but this one has the slot, and this one gives it away
  have hkids {k : Thread C} {q : Slot} (hq : q ∈ (update (update a (s.cur c) ((Instr.ready r).next (a (s.cur c))))
      (.proc r) fresh k).kids) : q ∈ (a k).kids ∧ q ≠ r := by
    by_cases hkr : k = .proc r
    · rw [hkr, update_self] at hq
      exact absurd hq (Finset.notMem_empty q)
    rw [update_of_ne hkr] at hq
    by_cases hk : k = s.cur c
    · subst hk
      rw [update_self] at hq
      exact ⟨Finset.mem_of_mem_erase hq, Finset.ne_of_mem_erase hq⟩
    · rw [update_of_ne hk] at hq
      refine ⟨hq, ?_⟩
      rintro rfl
      exact hk (h.threads.kids k _ q hq hkid)
  refine ⟨_, h.slot (n := s.nextpid) (e := fresh) hr (hrest.resolve_left id) ((h.threads.ok _).next (h.flows hcode).1) rfl
    rfl rfl rfl rfl rfl rfl rfl rfl (y := { s.proc r with state := .runnable, code := forkret }) ?_ rfl rfl
    (fun hs => ProcState.noConfusion hs) ?_ (fun k q hq => ?_) (fun k k' q hq hq' =>
      h.threads.kids k k' q (hkids hq).1 (hkids hq').1) ?_⟩
  · simp [instr, setProc]
  · refine .born hr (by rw [hme]) ?_ ?_ ?_ ?_ ?_ <;> rw [update_self]
    · rw [hme]
      exact forkret_flows (a := fresh)
    · exact Flow.Only.ok (S := {.ptable}) ⟨rfl, rfl, rfl, rfl, rfl, rfl⟩ (fun h => absurd rfl h)
        fun h => absurd h.symm (Option.some_ne_none _)
    · rfl
    · rfl
    · exact ⟨rfl, rfl, rfl, rfl, rfl, rfl⟩
  · obtain ⟨hq, hne⟩ := hkids hq
    rw [hother hne, goto_state]
    exact h.threads.kid k q hq
  · refine h.pids_fewer (fun q hq => ?_) (goto_nextpid ..)
    by_cases hqr : q = r
    · subst hqr
      rw [hme, he]
      exact ⟨fun h => ProcState.noConfusion h, rfl⟩
    · rw [hother hqr, goto_state] at hq
      exact ⟨hq, by rw [hother hqr, goto_pid]⟩

/-- A slot that is free, reserved or left changes among these states. -/
theorem reserve (h : Wf s a) {y : Proc} {n : Nat} (hr : ¬s.Live (.proc r)) (hflows : Flows code b) (hok : b.Ok)
    (hproc : b.proc = (a (s.cur c)).proc) (hparked : b.parked = (a (s.cur c)).parked)
    (hextra : b.extra = (a (s.cur c)).extra) (hheld : b.held = (a (s.cur c)).held)
    (hnamed : b.named = (a (s.cur c)).named) (howns : b.owns = (a (s.cur c)).owns)
    (hfree : b.free = (a (s.cur c)).free) (howes : b.owes = (a (s.cur c)).owes) (hbound : b.bound = (a (s.cur c)).bound)
    (ht : t = { (s.goto c code).setProc r y with nextpid := n }) (hy : y.state = .unused ∨ y.state = .embryo)
    (hkid : ∀ k q, q ∈ (update a (s.cur c) b k).kids → if q = r then y.state = .embryo else (s.proc q).state = .embryo)
    (hkids : ∀ k k' q, q ∈ (update a (s.cur c) b k).kids → q ∈ (update a (s.cur c) b k').kids → k = k')
    (hpids : Pids t) : Wf t (update a (s.cur c) b) := by
  have hcr : .proc r ≠ s.cur c := fun heq => hr (heq ▸ live_cur)
  have hme : t.proc r = y := by
    rw [ht]
    simp [setProc]
  have hother {q : Slot} (hq : q ≠ r) : t.proc q = (s.goto c code).proc q := by
    rw [ht]
    simp [setProc, hq]
  have heq : update a (s.cur c) b = update (update a (s.cur c) b) (.proc r) (a (.proc r)) := by
    funext k
    by_cases hk : k = .proc r
    · rw [hk, update_self, update_of_ne hcr]
    · rw [update_of_ne hk]
  refine h.slot hr hflows hok hproc hparked hextra hheld hnamed howns hfree howes hbound ht heq (h.threads.dead r hr).1
    (fun hs => ?_) (.unborn hr (by rwa [hme]) (update_of_ne hcr ..)) (fun k q hq => ?_) hkids hpids
  · rcases hy with hy | hy <;> exact ProcState.noConfusion (hs.symm.trans hy)
  · have := hkid k q hq
    split at this
    · rename_i hqr
      rwa [hqr, hme]
    · rename_i hqr
      rwa [hother hqr, goto_state]

theorem abandon (h : Wf s a) (hcode : s.code c = .abandon r :: rest) : ∃ a', Wf (s.instr c rest (.abandon r)) a' := by
  obtain ⟨⟨-, hkid⟩, hrest⟩ := h.flows hcode
  have he := h.threads.kid _ r hkid
  have hother {q : Slot} (hq : q ≠ r) : (s.instr c rest (.abandon r)).proc q = (s.goto c rest).proc q := by
    simp [instr, setState, setProc, hq]
  have hkids {k : Thread C} {q : Slot} (hq : q ∈ (update a (s.cur c) ((Instr.abandon r).next (a (s.cur c))) k).kids) :
      q ∈ (a k).kids ∧ q ≠ r := by
    by_cases hk : k = s.cur c
    · subst hk
      rw [update_self] at hq
      exact ⟨Finset.mem_of_mem_erase hq, Finset.ne_of_mem_erase hq⟩
    · rw [update_of_ne hk] at hq
      refine ⟨hq, ?_⟩
      rintro rfl
      exact hk (h.threads.kids k _ q hq hkid)
  refine ⟨_, h.reserve (n := s.nextpid) (y := { (s.goto c rest).proc r with state := .unused }) (h.not_live_of (.inr he))
    (hrest.resolve_left id) ((h.threads.ok _).next (h.flows hcode).1) rfl rfl rfl rfl rfl rfl rfl rfl rfl ?_ (.inl rfl)
    (fun k q hq => ?_) (fun k k' q hq hq' => h.threads.kids k k' q (hkids hq).1 (hkids hq').1) ?_⟩
  · simp [instr, setState, setProc]
  · rw [if_neg (hkids hq).2]
    exact h.threads.kid k q (hkids hq).1
  · refine h.pids_fewer (fun q hq => ?_) (goto_nextpid ..)
    by_cases hqr : q = r
    · subst hqr
      simp [instr, setState, setProc] at hq
    · rw [hother hqr, goto_state] at hq
      exact ⟨hq, by rw [hother hqr, goto_pid]⟩

omit [DecidableEq C] in
/-- What `find` finds. -/
theorem find_spec {u : Sys C} {P : Proc → Bool} (hf : u.find P = some r) : P (u.proc r) = true := by
  have := List.find?_some (p := fun q => P (u.proc q)) hf
  exact this

omit [DecidableEq C] in
/-- While a thread holds `ptable.lock`, the processes on the other CPUs run. -/
theorem others_run (h : Wf s a) (hp : .ptable ∈ (a (s.cur c)).held) (hn : (a (s.cur c)).parked = none)
    (hd : (s.cpu d).proc = some q) : (s.proc q).state = .running := by
  have hshows := h.threads.shows d q hd
  cases hpark : (a (.proc q)).parked with
  | none => rwa [hpark] at hshows
  | some x =>
    have honly := ((h.threads.ok (.proc q)).parked (hpark ▸ Option.some_ne_none x)).1
    rw [← cur_proc hd] at honly hpark
    have hdc : d = c := h.spins.holds.unique (table_held (S := ∅) honly) hp
    rw [hdc, hn] at hpark
    exact absurd hpark.symm (Option.some_ne_none x)

theorem alloc (h : Wf s a) {ok : Bool} (hcode : s.code c = .alloc ok :: rest) :
    ∃ a', Wf (s.instr c rest (.alloc ok)) a' := by
  obtain ⟨⟨-, honly, hproc⟩, hrest⟩ := h.flows hcode
  have hn := h.parked_none hcode Instr.noConfusion
  have heq := honly.eq hn
  have hrest : Flows rest ((a (s.cur c)).holds ∅) := hrest.resolve_left id
  obtain ⟨q, hq⟩ := h.proc hproc
  simp only [instr, withProc, hq, Sys.alloc]
  cases hf : s.find fun p => decide (p.state = .unused) with
  | none =>
    refine ⟨a, h.stay ?_⟩
    rw [heq]
    exact .lastOne hrest
  | some r =>
    have hu : (s.proc r).state = .unused := of_decide_eq_true (find_spec hf)
    have hnk (k : Thread C) : r ∉ (a k).kids := fun hk => ProcState.noConfusion ((h.threads.kid k r hk).symm.trans hu)
    dsimp only
    generalize hy : ({ s.proc r with
      state := .embryo, pid := s.nextpid, parent := if ok then some q else (s.proc r).parent } : Proc) = y
    have hys : y.state = .embryo := by rw [← hy]
    have hyp : y.pid = s.nextpid := by rw [← hy]
    have hkids {k : Thread C} {x : Slot}
        (hx : x ∈ (update a (s.cur c) { a (s.cur c) with kids := insert r (a (s.cur c)).kids } k).kids) :
        x ∈ (a k).kids ∨ (x = r ∧ k = s.cur c) := by
      by_cases hk : k = s.cur c
      · subst hk
        rw [update_self] at hx
        rcases Finset.mem_insert.mp hx with hx | hx
        · exact .inr ⟨hx, rfl⟩
        · exact .inl hx
      · rw [update_of_ne hk] at hx
        exact .inl hx
    have hflows : Flows (release .ptable ++ .busy ::
        (if ok then acquire .ptable ++ .ready r :: release .ptable else [.abandon r]) ++ rest)
        { a (s.cur c) with kids := insert r (a (s.cur c)).kids } := by
      have hback : Flows rest { (a (s.cur c)).holds ∅ with kids := (insert r (a (s.cur c)).kids).erase r } := by
        rw [Finset.erase_insert (hnk _)]
        exact hrest
      rw [heq]
      simp only [List.append_assoc, List.cons_append]
      apply Flows.lastOne (a := { a (s.cur c) with kids := insert r (a (s.cur c)).kids })
      refine .cons rfl Instr.noConfusion ⟨Flow.only_holds, hproc⟩ ?_
      cases ok with
      | true =>
        simp only [if_true, List.append_assoc, List.cons_append]
        apply Flows.first (a := { a (s.cur c) with kids := insert r (a (s.cur c)).kids })
        refine .cons rfl Instr.noConfusion ⟨Finset.mem_insert_self .., Finset.mem_singleton_self _⟩ ?_
        exact Flows.lastOne (a := { a (s.cur c) with kids := (insert r (a (s.cur c)).kids).erase r }) hback
      | false => exact .cons rfl Instr.noConfusion (Finset.mem_insert_self ..) hback
    refine ⟨_, h.reserve (n := s.nextpid + 1) (y := y) (h.not_live_of (.inl hu)) hflows ?_ rfl rfl rfl rfl rfl rfl rfl rfl
      rfl rfl (.inr hys) (fun k x hx => ?_) (fun k k' x hx hx' => ?_) ?_⟩
    · have hok := h.threads.ok (s.cur c)
      exact .of_none hn hok.named hok.free hok.owes hok.bound
    · rcases hkids hx with hk | hk
      · have hne : x ≠ r := by
          rintro rfl
          exact hnk k hk
        rw [if_neg hne]
        exact h.threads.kid k x hk
      · rw [if_pos hk.1, hys]
    · rcases hkids hx with hx | hx <;> rcases hkids hx' with hx' | hx'
      · exact h.threads.kids k k' x hx hx'
      · exact absurd (hx'.1 ▸ hx) (hnk k)
      · exact absurd (hx.1 ▸ hx') (hnk k')
      · exact hx.2.trans hx'.2.symm
    · have hme (u : Sys C) : (u.setProc r y).proc r = y := by simp [setProc]
      have hother {u : Sys C} {x : Slot} (hx : x ≠ r) : (u.setProc r y).proc x = u.proc x := by simp [setProc, hx]
      constructor
      · intro x hx
        by_cases hxr : x = r
        · subst hxr
          dsimp only
          rw [hme, hyp]
          have := h.pids.used q fun hu => ProcState.noConfusion (hu.symm.trans (h.running_self (cur_proc hq) hn))
          omega
        · dsimp only at hx ⊢
          rw [hother hxr] at hx ⊢
          rw [goto_state] at hx
          have := h.pids.used x hx
          rw [goto_pid]
          omega
      · intro x x' hx hx' hxx
        dsimp only at hx hx' hxx
        by_cases hxr : x = r <;> by_cases hxr' : x' = r
        · rw [hxr, hxr']
        · rw [hother hxr', goto_state] at hx'
          rw [hxr, hme, hyp, hother hxr', goto_pid] at hxx
          have := h.pids.used x' hx'
          omega
        · rw [hother hxr, goto_state] at hx
          rw [hxr', hme, hyp, hother hxr, goto_pid] at hxx
          have := h.pids.used x hx
          omega
        · rw [hother hxr, goto_state] at hx
          rw [hother hxr', goto_state] at hx'
          rw [hother hxr, hother hxr', goto_pid, goto_pid] at hxx
          exact h.pids.inj x x' hx hx' hxx

theorem scan (h : Wf s a) (hcode : s.code c = .scan :: rest) : ∃ a', Wf (s.instr c rest .scan) a' := by
  obtain ⟨⟨-, honly, hproc⟩, hrest⟩ := h.flows hcode
  have hn := h.parked_none hcode Instr.noConfusion
  have heq := honly.eq hn
  have hrest : Flows rest ((a (s.cur c)).holds ∅) := hrest.resolve_left id
  obtain ⟨q, hq⟩ := h.proc hproc
  simp only [instr, withProc, hq, Sys.scan]
  cases hf : s.find fun p => decide (p.parent = some q) && decide (p.state = .zombie) with
  | none =>
    dsimp only
    split
    · refine ⟨a, h.stay ?_⟩
      rw [heq]
      exact .lastOne hrest
    · refine ⟨a, h.stay ?_⟩
      rw [heq]
      refine .cons rfl Instr.noConfusion ⟨⟨rfl, rfl, rfl, rfl, rfl, rfl⟩, hproc⟩ ?_
      refine ⟨⟨iff_of_true (Option.some_ne_none _) rfl, trivial⟩, .inr ?_⟩
      refine .cons rfl Instr.noConfusion ⟨Finset.mem_singleton_self _, hproc⟩ ?_
      exact .cons rfl Instr.noConfusion ⟨Flow.only_holds, hproc⟩ hrest
  | some r =>
    have hz : (s.proc r).state = .zombie := by
      have := find_spec hf
      simp only [Bool.and_eq_true, decide_eq_true_eq] at this
      exact this.2
    -- the child has left its CPU, for the parent holds the lock of the table
    have hr : ¬s.Live (.proc r) := by
      rintro (hl | hl | ⟨d, hd⟩)
      · exact ProcState.noConfusion (hz.symm.trans hl)
      · exact ProcState.noConfusion (hz.symm.trans hl)
      · exact ProcState.noConfusion (hz.symm.trans (h.others_run (table_held (S := ∅) honly) hn hd))
    have hnk {k : Thread C} {x : Slot} (hx : x ∈ (a k).kids) : x ≠ r := by
      rintro rfl
      exact ProcState.noConfusion ((h.threads.kid k x hx).symm.trans hz)
    have hother {x : Slot} (y : Proc) (hx : x ≠ r) (u : Sys C) : (u.setProc r y).proc x = u.proc x := by
      simp [setProc, hx]
    have hflows : Flows (.freeing :: release .ptable ++ rest) (a (s.cur c)) := by
      rw [heq]
      exact .cons rfl Instr.noConfusion Flow.only_holds (.lastOne hrest)
    refine ⟨_, h.reserve (b := a (s.cur c)) (n := ((s.goto c (.freeing :: release .ptable ++ rest))).nextpid)
      (y := { s.proc r with state := .unused, pid := 0, parent := none, killed := false }) hr hflows
      (h.threads.ok _) rfl rfl rfl rfl rfl rfl rfl rfl rfl rfl (.inl rfl) (fun k x hx => ?_) (fun k k' x hx hx' => ?_) ?_⟩
    · rw [update_eq_self] at hx
      rw [if_neg (hnk hx)]
      exact h.threads.kid k x hx
    · rw [update_eq_self] at hx hx'
      exact h.threads.kids k k' x hx hx'
    · refine h.pids_fewer (fun x hx => ?_) (goto_nextpid ..)
      have hxr : x ≠ r := by
        rintro rfl
        exact hx (by simp [setProc])
      rw [hother _ hxr, goto_state] at hx
      exact ⟨hx, by rw [hother _ hxr, goto_pid]⟩

end Wf

end Xv6.Locks.Sys
