import AdvancedXv6.Locks.Table

/-! The switches between a process and the scheduler of a CPU keep the invariant. -/

namespace Xv6.Locks.Sys
open Function

variable {C : Type} [DecidableEq C] {s t : Sys C} {a a' : Thread C → Flow} {c d : C} {q r : Slot} {rest : Code}
  {k : Thread C}

omit [DecidableEq C] in
theorem sched_inj (h : s.cur d = .sched c) : d = c := by
  unfold cur at h
  cases hs : (s.cpu d).proc with
  | some r =>
    rw [hs] at h
    cases h
  | none =>
    rw [hs] at h
    exact Thread.sched.inj h

/-- The CPU `c` changes its thread: nothing else changes, and the thread that it leaves can be gone on with by a
thread that holds `ptable.lock`. -/
theorem Threads.switch (h : Threads s a) (hothers : ∀ d, d ≠ c → t.cpu d = s.cpu d) (hne : s.cur c ≠ t.cur c)
    (hfresh : ∀ d, d ≠ c → s.cur d ≠ t.cur c) (hlive : s.Live (t.cur c)) (htodo : ∀ k, k ≠ s.cur c → t.todo k = s.todo k)
    (ha : ∀ k, k ≠ s.cur c → a' k = a k)
    (hstate : ∀ q, .proc q ≠ s.cur c → .proc q ≠ t.cur c → (t.proc q).state = (s.proc q).state)
    (hchan : ∀ q, (t.proc q).chan = (s.proc q).chan)
    (hembryo : ∀ q, (s.proc q).state = .embryo → (t.proc q).state = .embryo)
    (hleft : t.Live (s.cur c) → Flows (t.todo (s.cur c)) (a' (s.cur c)) ∧ (a' (s.cur c)).parked = none ∧
      (a' (s.cur c)).Only {.ptable})
    (hok : (a' (s.cur c)).Ok) (hkind : (a' (s.cur c)).proc = (a (s.cur c)).proc) (hkids : ∀ k, (a' k).kids ⊆ (a k).kids)
    (hstopped : ∀ q, s.cur c = .proc q → (t.proc q).state ≠ .running)
    (hdead : ∀ q, s.cur c = .proc q → ¬t.Live (.proc q) → (a' (.proc q)).owns = ∅ ∧ (a' (.proc q)).kids = ∅)
    (hshows : ∀ q, t.cur c = .proc q → (t.proc q).Shows (a' (.proc q)).parked) : Threads t a' := by
  have hcur {d : C} (hd : d ≠ c) : t.cur d = s.cur d := by
    unfold cur
    rw [hothers d hd]
  have hsame {k : Thread C} (hk : k ≠ s.cur c) (hk' : k ≠ t.cur c) (d : C) : t.cur d = k ↔ s.cur d = k := by
    by_cases hd : d = c
    · subst hd
      exact iff_of_false hk'.symm hk.symm
    · rw [hcur hd]
  have hlives {k : Thread C} (hk : k ≠ s.cur c) (hk' : k ≠ t.cur c) : t.Live k ↔ s.Live k := by
    cases k with
    | sched d => exact Iff.rfl
    | proc q =>
      simp only [Live, hstate q hk hk', ← cur_eq_proc, hsame hk hk']
  have hon {d : C} {q : Slot} (hd : (t.cpu d).proc = some q) : (d = c ∧ t.cur c = .proc q) ∨
      ((s.cpu d).proc = some q ∧ .proc q ≠ s.cur c ∧ .proc q ≠ t.cur c) := by
    by_cases hdc : d = c
    · exact .inl ⟨hdc, cur_proc (hdc ▸ hd)⟩
    · rw [hothers d hdc] at hd
      refine .inr ⟨hd, fun hq => hdc ?_, fun hq => hfresh d hdc ((cur_proc hd).trans hq)⟩
      exact h.cur_inj ((cur_proc hd).trans hq)
  refine ⟨fun k hk => ?_, fun k => ?_, fun k => ?_, fun d e q hd he => ?_, fun k hk hoff => ?_, fun d q hd => ?_,
    fun q hq => ?_, fun k r hr => hembryo r (h.kid k r (hkids k hr)),
    fun k k' r hr hr' => h.kids k k' r (hkids k hr) (hkids k' hr'), fun q hq => ?_⟩
  · by_cases hkc : k = s.cur c
    · subst hkc
      exact (hleft hk).1
    rw [htodo k hkc, ha k hkc]
    by_cases hkt : k = t.cur c
    · exact h.flows k (hkt ▸ hlive)
    · exact h.flows k ((hlives hkc hkt).mp hk)
  · by_cases hkc : k = s.cur c
    · rwa [hkc]
    · rw [ha k hkc]
      exact h.ok k
  · by_cases hkc : k = s.cur c
    · rw [hkc, hkind, h.kind]
    · rw [ha k hkc, h.kind]
  · rcases hon hd with ⟨hdc, hq⟩ | ⟨hd, hqc, hqt⟩ <;> rcases hon he with ⟨hec, hq'⟩ | ⟨he, hqc', hqt'⟩
    · rw [hdc, hec]
    · exact absurd hq.symm hqt'
    · exact absurd hq'.symm hqt
    · exact h.one d e q hd he
  · by_cases hkc : k = s.cur c
    · subst hkc
      exact (hleft hk).2
    have hkt : k ≠ t.cur c := (hoff c).symm
    rw [ha k hkc]
    exact h.off k ((hlives hkc hkt).mp hk) fun d hd => hoff d ((hsame hkc hkt d).mpr hd)
  · rcases hon hd with ⟨hdc, hq⟩ | ⟨hd, hqc, hqt⟩
    · exact hshows q hq
    · rw [ha _ hqc, Proc.shows_congr (hstate q hqc hqt) (hchan q)]
      exact h.shows d q hd
  · by_cases hqc : .proc q = s.cur c
    · exact absurd hq (hstopped q hqc.symm)
    by_cases hqt : .proc q = t.cur c
    · exact ⟨c, cur_eq_proc.mp hqt.symm⟩
    obtain ⟨d, hd⟩ := h.running q ((hstate q hqc hqt).symm.trans hq)
    exact ⟨d, cur_eq_proc.mp ((hsame hqc hqt d).mpr (cur_proc hd))⟩
  · by_cases hqc : .proc q = s.cur c
    · exact hdead q hqc.symm hq
    have hqt : .proc q ≠ t.cur c := fun heq => hq (heq ▸ live_cur)
    rw [ha _ hqc]
    exact h.dead q fun hl => hq ((hlives hqc hqt).mpr hl)

namespace Wf

/-- A CPU changes its thread between two that hold `ptable.lock` and nothing else. -/
theorem switch (h : Wf s a) (hthreads : Threads t a') (hothers : ∀ d, d ≠ c → t.cpu d = s.cpu d)
    (hncli : (t.cpu c).ncli = (s.cpu c).ncli) (hiflag : (t.cpu c).iflag = (s.cpu c).iflag)
    (ha : ∀ d, d ≠ c → a' (s.cur d) = a (s.cur d)) (hfrom : (a (s.cur c)).Only {.ptable})
    (hto : (a' (t.cur c)).Only {.ptable}) (hlock : t.lock = s.lock) (hsleep : t.sleep = s.sleep)
    (hpanic : t.panic = s.panic) (hnext : t.nextpid = s.nextpid) (howns : ∀ k, (a' k).owns ⊆ (a k).owns)
    (hpid : ∀ q, (t.proc q).pid = (s.proc q).pid) (hchan : ∀ q, (t.proc q).chan = (s.proc q).chan)
    (hstate : ∀ q, (t.proc q).state = (s.proc q).state ∨
      ((s.proc q).state = .runnable ∧ (t.proc q).state = .running)) : Wf t a' := by
  have hcur {d : C} (hd : d ≠ c) : t.cur d = s.cur d := by
    unfold cur
    rw [hothers d hd]
  have hview : (fun d => a' (t.cur d)) = update (fun d => a (s.cur d)) c (a' (t.cur c)) := by
    funext d
    by_cases hd : d = c
    · subst hd
      rw [update_self]
    · rw [update_of_ne hd, hcur hd, ha d hd]
  obtain ⟨hextra, hheld, hnamed, hfree, howes, hbound⟩ := hfrom
  obtain ⟨hextra', hheld', hnamed', hfree', howes', hbound'⟩ := hto
  refine ⟨hthreads, ?_, ?_, ?_, hpanic.trans h.panic⟩
  · rw [hview, hlock]
    refine h.spins.keep hothers hncli (fun hd => ?_) (hextra'.trans hextra.symm) (hheld'.trans hheld.symm)
      (hnamed'.trans hnamed.symm)
    rw [hiflag]
    exact h.spins.masked c hd
  · refine h.sleeps.turn (congrFun hview) hsleep howns (fun q _ _ => hpid q) (.inr hfree') (howes'.trans howes.symm)
      (.inr hbound') fun q i hq hch => .inl ⟨?_, (hchan q).symm.trans hch⟩
    rcases hstate q with hs | hs
    · exact hs.symm.trans hq
    · exact ProcState.noConfusion (hs.2.symm.trans hq)
  · refine h.pids.congr (fun q => ?_) hpid hnext
    rcases hstate q with hs | hs
    · rw [hs]
    · rw [hs.1, hs.2]
      simp

/-- The checks of `sched` pass. -/
theorem sched_passes (h : Wf s a) (hcode : s.code c = .sched :: rest) : ∃ q, (s.cpu c).proc = some q ∧
    s.instr c rest .sched = (s.setProc q { s.proc q with code := .restore (s.cpu c).intena :: rest }).setCpu c
      { s.cpu c with proc := none } := by
  have hparked : (a (s.cur c)).parked ≠ none := (h.flows hcode).1.1.mpr rfl
  obtain ⟨honly, hproc⟩ := (h.threads.ok (s.cur c)).parked hparked
  obtain ⟨q, hq⟩ := h.proc hproc
  refine ⟨q, hq, ?_⟩
  have hheld : s.holding c .ptable := (h.spins.holding (h.threads.ok _)).mpr <| by
    rw [honly.2.2.1]
    exact Finset.mem_singleton_self _
  have hdepth : (a (s.cur c)).depth = 1 := by
    rw [honly.depth]
    rfl
  have hiflag : (s.cpu c).iflag = false := h.spins.masked c (hdepth ▸ Nat.one_pos)
  have hncli : (s.cpu c).ncli = 1 := (h.spins.ncli c).trans hdepth
  have hstate : (s.proc q).state ≠ .running := by
    intro hs
    have hshows := h.threads.shows c q hq
    rw [cur_proc hq] at hparked
    rcases hp : (a (.proc q)).parked with _ | _ | _ | _
    · exact hparked hp
    all_goals simp [hp, Proc.Shows, hs] at hshows
  simp only [instr, withProc, hq]
  simp [Sys.sched, hheld, hiflag, hncli, hstate]

theorem sched (h : Wf s a) (hcode : s.code c = .sched :: rest) : ∃ a', Wf (s.instr c rest .sched) a' := by
  obtain ⟨q, hq, hinstr⟩ := h.sched_passes hcode
  have hcq := cur_proc hq
  obtain ⟨hallowed, hrest⟩ := h.flows hcode
  have hok := h.threads.ok (s.cur c)
  have hparked : (a (s.cur c)).parked ≠ none := hallowed.1.mpr rfl
  have honly := (hok.parked hparked).1
  have hshows := h.threads.shows c q hq
  rw [← hcq] at hshows
  rw [hinstr]
  generalize ht : (s.setProc q { s.proc q with code := .restore (s.cpu c).intena :: rest }).setCpu c
    { s.cpu c with proc := none } = t
  have hothers {d : C} (hd : d ≠ c) : t.cpu d = s.cpu d := by
    rw [← ht]
    exact setCpu_cpu_ne _ hd
  have hcpu : t.cpu c = { s.cpu c with proc := none } := by
    rw [← ht]
    exact setCpu_cpu ..
  have hne {r : Slot} (hr : r ≠ q) : t.proc r = s.proc r := by
    rw [← ht]
    simp [Sys.setCpu, setProc, hr]
  have hme : t.proc q = { s.proc q with code := .restore (s.cpu c).intena :: rest } := by
    rw [← ht]
    simp [Sys.setCpu, setProc]
  have hfield {β : Type} (f : Proc → β) (hf : ∀ p code, f { p with code := code } = f p) (r : Slot) :
      f (t.proc r) = f (s.proc r) := by
    by_cases hr : r = q
    · rw [hr, hme, hf]
    · rw [hne hr]
  have hsame (r : Slot) : (t.proc r).state = (s.proc r).state := hfield Proc.state (fun _ _ => rfl) r
  have hcur : t.cur c = .sched c := cur_sched (by rw [hcpu])
  have hfresh (d : C) (hd : d ≠ c) : s.cur d ≠ t.cur c := fun heq => hd (sched_inj (heq.trans hcur))
  have hnocur (d : C) : s.cur d ≠ .sched c := by
    by_cases hd : d = c
    · rw [hd, hcq]
      simp
    · rw [← hcur]
      exact hfresh d hd
  -- a process that has exited does not come back
  have hzombie (hl : t.Live (s.cur c)) : (a (s.cur c)).parked ≠ some .zombie := by
    intro hp
    rw [hp] at hshows
    rw [hcq] at hl
    rcases hl with hs | hs | ⟨d, hd⟩
    · exact ProcState.noConfusion (hs.symm.trans ((hsame q).trans hshows))
    · exact ProcState.noConfusion (hs.symm.trans ((hsame q).trans hshows))
    · by_cases hdc : d = c
      · rw [hdc, hcpu] at hd
        exact Option.noConfusion rfl (heq_of_eq hd)
      · rw [hothers hdc] at hd
        exact hdc (h.threads.one d c q hd hq)
  have hgone (hl : ¬t.Live (.proc q)) : (a (s.cur c)).parked = some .zombie := by
    cases hp : (a (s.cur c)).parked with
    | none => exact absurd hp hparked
    | some x =>
      rw [hp] at hshows
      cases x with
      | standing => exact absurd (.inr (.inl ((hsame q).trans hshows))) hl
      | asleep ch => exact absurd (.inl ((hsame q).trans hshows.1)) hl
      | zombie => rfl
  have hthreads : Threads t (update a (s.cur c) (Instr.sched.next (a (s.cur c)))) := by
    refine h.threads.switch (fun d hd => hothers hd) ?_ hfresh (hcur ▸ trivial) (fun k hk => ?_)
      (fun k hk => update_of_ne hk ..) (fun r _ _ => hsame r) (hfield Proc.chan fun _ _ => rfl)
      (fun r hr => (hsame r).trans hr) (fun hl => ?_) ?_ ?_ (update_subset Flow.kids (Finset.Subset.refl _))
      (fun r hr hrun => ?_) (fun r hr hl => ?_) fun r hr => ?_
    · rw [hcur]
      exact hnocur c
    · cases k with
      | sched d =>
        by_cases hd : d = c
        · rw [todo, hd, hcpu]
          rfl
        · rw [todo, hothers hd]
          rfl
      | proc r =>
        have hr : r ≠ q := fun hr => hk (hr ▸ hcq.symm)
        rw [todo, hne hr]
        rfl
    · have htodo : t.todo (s.cur c) = .restore (s.cpu c).intena :: rest := by
        rw [hcq, todo, hme]
      rw [update_self, htodo]
      refine ⟨.cons rfl Instr.noConfusion (table_held (S := ∅) honly) (hrest.resolve_left (hzombie hl)), rfl, honly⟩
    · rw [update_self]
      exact hok.next hallowed
    · rw [update_self]
      rfl
    · have hrq : r = q := Thread.proc.inj (hr.symm.trans hcq)
      rw [hrq, hsame] at hrun
      rcases hp : (a (s.cur c)).parked with _ | _ | _ | _
      · exact hparked hp
      all_goals simp [hp, Proc.Shows, hrun] at hshows
    · have hrq : r = q := Thread.proc.inj (hr.symm.trans hcq)
      rw [hrq] at hl
      rw [← hr, update_self]
      exact hok.zombie (hgone hl)
    · rw [hcur] at hr
      cases hr
  obtain ⟨-, hidle⟩ := h.threads.off (.sched c) trivial hnocur
  refine ⟨_, h.switch (c := c) hthreads (fun d hd => hothers hd) (by rw [hcpu]) (by rw [hcpu]) (fun d hd => ?_) honly ?_
    (by rw [← ht]; rfl) (by rw [← ht]; rfl) (by rw [← ht]; rfl) (by rw [← ht]; rfl)
    (update_subset Flow.owns (Finset.Subset.refl _)) (hfield Proc.pid fun _ _ => rfl) (hfield Proc.chan fun _ _ => rfl)
    fun r => .inl (hsame r)⟩
  · exact update_of_ne (fun heq => hd (h.threads.cur_inj heq)) ..
  · rw [hcur, update_of_ne (hnocur c).symm]
    exact hidle

theorem tryRun (h : Wf s a) (hcode : s.code c = .tryRun q :: rest) : Wf (s.instr c rest (.tryRun q)) a := by
  obtain ⟨⟨-, honly, hproc⟩, hrest⟩ := h.flows hcode
  have hn := h.parked_none hcode Instr.noConfusion
  have hrest : Flows rest (a (s.cur c)) := hrest.resolve_left id
  simp only [instr]
  split
  case isFalse => exact h.stay hrest
  rename_i hq
  have hsc : (s.cpu c).proc = none := by
    cases hc : (s.cpu c).proc with
    | none => rfl
    | some r =>
      rw [h.threads.kind, cur_proc hc] at hproc
      exact absurd hproc.symm Bool.false_ne_true
  have hcur := cur_sched hsc
  -- a process that can run is on no CPU, as this one holds the lock of the table
  have hoffq (d : C) : s.cur d ≠ .proc q := fun hd =>
    ProcState.noConfusion (hq.symm.trans (h.others_run (table_held (S := ∅) honly) hn (cur_eq_proc.mp hd)))
  obtain ⟨hnq, honlyq⟩ := h.threads.off (.proc q) (.inr (.inl hq)) hoffq
  have hgoto : s.goto c rest = s.setCpu c { s.cpu c with sched := rest } := by
    unfold goto
    rw [hsc]
  generalize ht : ((s.goto c rest).setState q .running).setCpu c { (s.goto c rest).cpu c with proc := some q } = t
  have hothers {d : C} (hd : d ≠ c) : t.cpu d = s.cpu d := by
    rw [← ht, hgoto]
    simp [Sys.setCpu, setState, setProc, hd]
  have hcpu : t.cpu c = { s.cpu c with sched := rest, proc := some q } := by
    rw [← ht, hgoto]
    simp [Sys.setCpu, setState, setProc]
  have hne {r : Slot} (hr : r ≠ q) : t.proc r = s.proc r := by
    rw [← ht, hgoto]
    simp [Sys.setCpu, setState, setProc, hr]
  have hme : t.proc q = { s.proc q with state := .running } := by
    rw [← ht, hgoto]
    simp [Sys.setCpu, setState, setProc]
  have hfield {β : Type} (f : Proc → β) (hf : ∀ p, f { p with state := .running } = f p) (r : Slot) :
      f (t.proc r) = f (s.proc r) := by
    by_cases hr : r = q
    · rw [hr, hme, hf]
    · rw [hne hr]
  have hcur' : t.cur c = .proc q := cur_proc (by rw [hcpu])
  have hnext (r : Slot) : (t.proc r).state = (s.proc r).state ∨
      ((s.proc r).state = .runnable ∧ (t.proc r).state = .running) := by
    by_cases hr : r = q
    · rw [hr, hme]
      exact .inr ⟨hq, rfl⟩
    · rw [hne hr]
      exact .inl rfl
  have hthreads : Threads t a := by
    refine h.threads.switch (fun d hd => hothers hd) ?_ (fun d _ => hcur' ▸ hoffq d) ?_ (fun k hk => ?_) (fun k _ => rfl)
      (fun r _ hr => ?_) (hfield Proc.chan fun _ => rfl) (fun r hr => ?_) (fun _ => ⟨?_, hn, honly⟩) (h.threads.ok _) rfl
      (fun k => subset_rfl) (fun r hr => ?_) (fun r hr => ?_) fun r hr => ?_
    · rw [hcur']
      exact hoffq c
    · rw [hcur']
      exact .inr (.inl hq)
    · cases k with
      | sched d =>
        have hd : d ≠ c := fun hd => hk (hd ▸ hcur.symm)
        rw [todo, hothers hd]
        rfl
      | proc r => exact hfield Proc.code (fun _ => rfl) r
    · have hrq : r ≠ q := fun heq => hr ((congrArg Thread.proc heq).trans hcur'.symm)
      rw [hne hrq]
    · rcases hnext r with hs | hs
      · exact hs.trans hr
      · exact ProcState.noConfusion (hr.symm.trans hs.1)
    · have htodo : t.todo (s.cur c) = rest := by
        rw [hcur, todo, hcpu]
      rwa [htodo]
    · rw [hcur] at hr
      cases hr
    · rw [hcur] at hr
      cases hr
    · have hrq : q = r := Thread.proc.inj (hcur'.symm.trans hr)
      rw [← hrq, hme, hnq]
      rfl
  refine h.switch (c := c) hthreads (fun d hd => hothers hd) (by rw [hcpu]) (by rw [hcpu]) (fun d hd => rfl) honly ?_
    (by rw [← ht]; exact goto_lock ..) (by rw [← ht]; exact goto_sleep ..) (by rw [← ht]; exact goto_panic ..)
    (by rw [← ht]; exact goto_nextpid ..) (fun k => subset_rfl) (hfield Proc.pid fun _ => rfl)
    (hfield Proc.chan fun _ => rfl) hnext
  rw [hcur']
  exact honlyq

end Wf

end Xv6.Locks.Sys
