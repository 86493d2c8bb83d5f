import AdvancedXv6.Locks.Wf

/-! Each step of a thread keeps the invariant. -/

namespace Xv6.Locks.Sys
open Function

variable {C : Type} [DecidableEq C] {s t : Sys C} {a : Thread C → Flow} {c d : C} {q r : Slot} {code rest : Code}
  {b : Flow} {k : Thread C} {l : Lock} {i : Nat} {x : Instr}

/-! ### What `goto` leaves -/

section Goto
variable (s c code)

@[simp] theorem goto_lock : (s.goto c code).lock = s.lock := by unfold goto; split <;> rfl
@[simp] theorem goto_sleep : (s.goto c code).sleep = s.sleep := by unfold goto; split <;> rfl
@[simp] theorem goto_nextpid : (s.goto c code).nextpid = s.nextpid := by unfold goto; split <;> rfl
@[simp] theorem goto_panic : (s.goto c code).panic = s.panic := by unfold goto; split <;> rfl

theorem goto_cpu (d : C) : ∃ code', (s.goto c code).cpu d = { s.cpu d with sched := code' } := by
  unfold goto
  split
  · exact ⟨_, rfl⟩
  · by_cases hd : d = c
    · subst hd
      exact ⟨code, by simp [setCpu]⟩
    · exact ⟨(s.cpu d).sched, by simp [setCpu, hd]⟩

theorem goto_cpu_ne (hd : d ≠ c) : (s.goto c code).cpu d = s.cpu d := by
  unfold goto
  split
  · rfl
  · simp [setCpu, hd]

@[simp] theorem goto_ncli (d : C) : ((s.goto c code).cpu d).ncli = (s.cpu d).ncli := by
  obtain ⟨_, h⟩ := goto_cpu s c code d
  rw [h]

@[simp] theorem goto_iflag (d : C) : ((s.goto c code).cpu d).iflag = (s.cpu d).iflag := by
  obtain ⟨_, h⟩ := goto_cpu s c code d
  rw [h]

@[simp] theorem goto_cpu_proc (d : C) : ((s.goto c code).cpu d).proc = (s.cpu d).proc := by
  obtain ⟨_, h⟩ := goto_cpu s c code d
  rw [h]

@[simp] theorem goto_state (q : Slot) : ((s.goto c code).proc q).state = (s.proc q).state := (goes_goto s c code).state q

@[simp] theorem goto_chan (q : Slot) : ((s.goto c code).proc q).chan = (s.proc q).chan := (goes_goto s c code).chan q

@[simp] theorem goto_pid (q : Slot) : ((s.goto c code).proc q).pid = (s.proc q).pid := (goes_goto s c code).pid q

end Goto

omit [DecidableEq C] in
theorem setLock_lock (s : Sys C) (l : Lock) (y : Spinlock C) : (s.setLock l y).lock = update s.lock l y := rfl

theorem setCpu_lock (s : Sys C) (c : C) (y : Cpu) : (s.setCpu c y).lock = s.lock := rfl

omit [DecidableEq C] in
theorem setSleep_lock (s : Sys C) (i : Nat) (y : Sleeplock) : (s.setSleep i y).lock = s.lock := rfl

theorem setCpu_cpu (s : Sys C) (c : C) (y : Cpu) : (s.setCpu c y).cpu c = y := update_self ..

theorem setCpu_cpu_ne {s : Sys C} (y : Cpu) (hd : d ≠ c) : (s.setCpu c y).cpu d = s.cpu d := update_of_ne hd ..

namespace Wf

/-- The thread on `c` goes on with other code, the locks stay as they are. -/
theorem jump (h : Wf s a) (hflows : Flows code b) (hok : b.Ok) (hproc : b.proc = (a (s.cur c)).proc)
    (hparked : b.parked = (a (s.cur c)).parked) (hkids : b.kids ⊆ (a (s.cur c)).kids)
    (hextra : b.extra = (a (s.cur c)).extra) (hheld : b.held = (a (s.cur c)).held)
    (hnamed : b.named = (a (s.cur c)).named) (hsleeps : Sleeps (s.goto c code) (update a (s.cur c) b)) :
    Wf (s.goto c code) (update a (s.cur c) b) := by
  refine h.goes (goes_goto s c code) hflows hok hproc hparked hkids ?_ hsleeps (goto_panic ..)
  rw [goto_lock]
  refine h.spins.keep (fun d hd => goto_cpu_ne s c code hd) (goto_ncli ..) (fun hd => ?_) hextra hheld hnamed
  rw [goto_iflag]
  exact h.spins.masked c hd

/-- The thread goes on with code that can be begun where it stands. -/
theorem stay (h : Wf s a) (hflows : Flows code (a (s.cur c))) : Wf (s.goto c code) a := by
  have hsleeps := h.sleeps_goes (b := a (s.cur c)) (goes_goto s c code) (goto_sleep ..) subset_rfl (.inl rfl) rfl (.inl rfl)
  have := h.jump hflows (h.threads.ok _) rfl rfl subset_rfl rfl rfl rfl hsleeps
  rwa [update_eq_self] at this

section Spin

/-- The thread goes on past an instruction that is about the spinlocks. -/
theorem spin (h : Wf s a) (hcode : s.code c = x :: rest) (hg : Goes s c rest t) (hlast : ¬x.last (a (s.cur c)))
    (hspins : Spins t.cpu t.lock (update (fun d => a (s.cur d)) c (x.next (a (s.cur c)))))
    (hproc : (x.next (a (s.cur c))).proc = (a (s.cur c)).proc)
    (hparked : (x.next (a (s.cur c))).parked = (a (s.cur c)).parked)
    (hkids : (x.next (a (s.cur c))).kids = (a (s.cur c)).kids) (howns : (x.next (a (s.cur c))).owns = (a (s.cur c)).owns)
    (hfree : (x.next (a (s.cur c))).free = (a (s.cur c)).free) (howes : (x.next (a (s.cur c))).owes = (a (s.cur c)).owes)
    (hbound : (x.next (a (s.cur c))).bound = (a (s.cur c)).bound) (hsleep : t.sleep = s.sleep) (hpanic : t.panic = s.panic) :
    Wf t (update a (s.cur c) (x.next (a (s.cur c)))) := by
  obtain ⟨hallowed, hrest⟩ := h.flows hcode
  exact h.goes hg (hrest.resolve_left hlast) ((h.threads.ok _).next hallowed) hproc hparked hkids.subset hspins
    (h.sleeps_goes hg hsleep howns.subset (.inl hfree) howes (.inl hbound)) hpanic

theorem pushcli (h : Wf s a) (hcode : s.code c = .pushcli :: rest) : ∃ a', Wf (s.instr c rest .pushcli) a' := by
  dsimp only [instr]
  refine ⟨_, h.spin hcode ((goes_goto s c rest).setCpu _ rfl rfl) id ?_ rfl rfl rfl rfl rfl rfl rfl (goto_sleep ..)
    (goto_panic ..)⟩
  rw [setCpu_lock, goto_lock]
  apply h.spins.pushcli (fun d hd => (setCpu_cpu_ne _ hd).trans (goto_cpu_ne s c rest hd))
  · rw [setCpu_cpu, goto_ncli]
  · rw [setCpu_cpu]

theorem popcli (h : Wf s a) (hcode : s.code c = .popcli :: rest) : ∃ a', Wf (s.instr c rest .popcli) a' := by
  have hpos : 0 < (a (s.cur c)).extra := (h.flows hcode).1.2
  have hdepth : 0 < (a (s.cur c)).depth := Nat.lt_of_lt_of_le hpos (Nat.le_add_left ..)
  have hiflag : ((s.goto c rest).cpu c).iflag = false := by
    rw [goto_iflag]
    exact h.spins.masked c hdepth
  have hncli : ((s.goto c rest).cpu c).ncli ≠ 0 := by
    rw [goto_ncli, h.spins.ncli c]
    exact hdepth.ne'
  simp only [instr, hiflag, Bool.false_eq_true, if_false, hncli]
  refine ⟨_, h.spin hcode ((goes_goto s c rest).setCpu _ rfl rfl) id ?_ rfl rfl rfl rfl rfl rfl rfl (goto_sleep ..)
    (goto_panic ..)⟩
  rw [setCpu_lock, goto_lock]
  apply h.spins.popcli (fun d hd => (setCpu_cpu_ne _ hd).trans (goto_cpu_ne s c rest hd)) hpos
  · rw [setCpu_cpu, goto_ncli]
  · intro hne
    rw [setCpu_cpu, goto_ncli]
    simp [hne]

/-- The registers of `c` change, and interrupts come on only when no lock is held. -/
theorem regs (h : Wf s a) {y : Cpu} (hflows : Flows code (a (s.cur c)))
    (hproc : y.proc = ((s.goto c code).cpu c).proc) (hsched : y.sched = ((s.goto c code).cpu c).sched)
    (hncli : y.ncli = ((s.goto c code).cpu c).ncli) (hiflag : 0 < (a (s.cur c)).depth → y.iflag = false) :
    Wf ((s.goto c code).setCpu c y) a := by
  have hg := (goes_goto s c code).setCpu y hproc hsched
  have hsleeps := h.sleeps_goes (b := a (s.cur c)) hg (goto_sleep ..) subset_rfl (.inl rfl) rfl (.inl rfl)
  have := h.goes hg hflows (h.threads.ok _) rfl rfl subset_rfl ?_ hsleeps (goto_panic ..)
  · rwa [update_eq_self] at this
  rw [setCpu_lock, goto_lock]
  refine h.spins.keep (fun d hd => (setCpu_cpu_ne _ hd).trans (goto_cpu_ne s c code hd)) ?_ (fun hd => ?_) rfl rfl rfl
  · rw [setCpu_cpu, hncli, goto_ncli]
  · rw [setCpu_cpu]
    exact hiflag hd

/-- Interrupts come on where nothing is held. -/
theorem unmask (h : Wf s a) {y : Cpu} (hflows : Flows code (a (s.cur c))) (honly : (a (s.cur c)).Only ∅)
    (hproc : y.proc = ((s.goto c code).cpu c).proc) (hsched : y.sched = ((s.goto c code).cpu c).sched)
    (hncli : y.ncli = ((s.goto c code).cpu c).ncli) : Wf ((s.goto c code).setCpu c y) a := by
  apply h.regs hflows hproc hsched hncli
  intro hd
  rw [honly.depth] at hd
  exact absurd hd (lt_irrefl 0)

theorem xchg (h : Wf s a) (hcode : s.code c = .xchg l :: rest) : ∃ a', Wf (s.instr c rest (.xchg l)) a' := by
  simp only [instr]
  split
  · exact ⟨a, h⟩
  · rename_i hfree
    obtain ⟨hpos, hl, -⟩ := (h.flows hcode).1.2
    refine ⟨_, h.spin hcode ((goes_goto s c rest).setLock ..) id ?_ rfl rfl rfl rfl rfl rfl rfl (goto_sleep ..)
      (goto_panic ..)⟩
    rw [setLock_lock, goto_lock]
    exact h.spins.xchg (fun d hd => goto_cpu_ne s c rest hd) (goto_ncli ..) (goto_iflag ..)
      (Bool.eq_false_iff.mpr hfree) hpos hl

theorem setCpu (h : Wf s a) (hcode : s.code c = .setCpu l :: rest) : ∃ a', Wf (s.instr c rest (.setCpu l)) a' := by
  have hl : l ∈ (a (s.cur c)).held := (h.flows hcode).1.2
  simp only [instr, h.spins.masked_of_mem hl, Bool.false_eq_true, if_false]
  refine ⟨_, h.spin hcode ((goes_goto s c rest).setLock ..) id ?_ rfl rfl rfl rfl rfl rfl rfl (goto_sleep ..)
    (goto_panic ..)⟩
  rw [setLock_lock, goto_lock]
  exact h.spins.setCpu (fun d hd => goto_cpu_ne s c rest hd) (goto_ncli ..) (goto_iflag ..) hl h.sub

theorem clearCpu (h : Wf s a) (hcode : s.code c = .clearCpu l :: rest) :
    ∃ a', Wf (s.instr c rest (.clearCpu l)) a' := by
  have hl : l ∈ (a (s.cur c)).held := (h.flows hcode).1.2
  dsimp only [instr]
  refine ⟨_, h.spin hcode ((goes_goto s c rest).setLock ..) id ?_ rfl rfl rfl rfl rfl rfl rfl (goto_sleep ..)
    (goto_panic ..)⟩
  rw [setLock_lock, goto_lock]
  exact h.spins.clearCpu (fun d hd => goto_cpu_ne s c rest hd) (goto_ncli ..) (goto_iflag ..) hl h.sub

theorem clear (h : Wf s a) (hcode : s.code c = .clear l :: rest) : ∃ a', Wf (s.instr c rest (.clear l)) a' := by
  obtain ⟨hl, hn, -⟩ := (h.flows hcode).1.2
  dsimp only [instr]
  refine ⟨_, h.spin hcode ((goes_goto s c rest).setLock ..) id ?_ rfl rfl rfl rfl rfl rfl rfl (goto_sleep ..)
    (goto_panic ..)⟩
  rw [setLock_lock, goto_lock]
  exact h.spins.clear (fun d hd => goto_cpu_ne s c rest hd) (goto_ncli ..) (goto_iflag ..) hl hn

theorem checkFree (h : Wf s a) (hcode : s.code c = .checkFree l :: rest) :
    ∃ a', Wf (s.instr c rest (.checkFree l)) a' := by
  obtain ⟨⟨-, hl⟩, hrest⟩ := h.flows hcode
  have hfree : ¬s.holding c l := fun hh => hl (h.sub c ((h.spins.holding (h.threads.ok _)).mp hh))
  simp only [instr, hfree, if_false]
  exact ⟨a, h.stay (hrest.resolve_left id)⟩

theorem checkHeld (h : Wf s a) (hcode : s.code c = .checkHeld l :: rest) :
    ∃ a', Wf (s.instr c rest (.checkHeld l)) a' := by
  obtain ⟨⟨-, hl⟩, hrest⟩ := h.flows hcode
  have hheld : s.holding c l := (h.spins.holding (h.threads.ok _)).mpr hl
  simp only [instr, hheld, if_true]
  exact ⟨a, h.stay (hrest.resolve_left id)⟩

end Spin

/-! ### Control -/

section Control

/-- The thread on `c` goes on past an instruction that only moves it. -/
theorem pass (h : Wf s a) (hcode : s.code c = x :: rest) (hlast : ¬x.last (a (s.cur c)))
    (hnext : x.next (a (s.cur c)) = a (s.cur c)) : Wf (s.goto c rest) a := by
  have := (h.flows hcode).2.resolve_left hlast
  rw [hnext] at this
  exact h.stay this

omit [DecidableEq C] in
theorem parked_none (h : Wf s a) (hcode : s.code c = x :: rest) (hx : x ≠ .sched) : (a (s.cur c)).parked = none :=
  not_not.mp fun hp => hx ((h.flows hcode).1.1.mp hp)

omit [DecidableEq C] in
/-- A thread that is a process is the process of its CPU. -/
theorem proc (h : Wf s a) (hp : (a (s.cur c)).proc = true) : ∃ q, (s.cpu c).proc = some q := by
  rw [h.threads.kind] at hp
  cases hc : (s.cpu c).proc with
  | some q => exact ⟨q, rfl⟩
  | none =>
    rw [cur_sched hc] at hp
    exact absurd hp Bool.false_ne_true

theorem restore (h : Wf s a) {o : Bool} (hcode : s.code c = .restore o :: rest) :
    Wf (s.instr c rest (.restore o)) a := by
  have hflows := (h.flows hcode).2.resolve_left id
  refine h.regs hflows rfl rfl rfl fun hd => ?_
  rw [← h.spins.masked c hd]
  exact goto_iflag ..

theorem forever (h : Wf s a) (hcode : s.code c = .forever :: rest) : Wf (s.instr c rest .forever) a := by
  obtain ⟨honly, hproc⟩ := (h.flows hcode).1.2
  apply h.stay
  rw [honly.eq (h.parked_none hcode Instr.noConfusion)]
  exact scheduler_flows hproc

theorem checkInit (h : Wf s a) (hcode : s.code c = .checkInit :: rest) :
    Wf (s.instr c rest .checkInit) a ∨ s.instr c rest .checkInit = s.fail .initExiting := by
  obtain ⟨q, hq⟩ := h.proc (h.flows hcode).1.2.2
  simp only [instr, withProc, hq]
  split
  · exact .inr rfl
  · exact .inl (h.pass hcode id rfl)

theorem exitIfKilled (h : Wf s a) (hcode : s.code c = .exitIfKilled :: rest) :
    Wf (s.instr c rest .exitIfKilled) a := by
  obtain ⟨honly, hproc⟩ := (h.flows hcode).1.2
  obtain ⟨q, hq⟩ := h.proc hproc
  simp only [instr, withProc, hq]
  split
  · apply h.stay
    rw [honly.eq (h.parked_none hcode Instr.noConfusion), ← List.append_nil Locks.exit]
    exact .exit hproc
  · exact h.pass hcode id rfl

theorem yieldIfRunning (h : Wf s a) (hcode : s.code c = .yieldIfRunning :: rest) :
    Wf (s.instr c rest .yieldIfRunning) a := by
  obtain ⟨⟨-, honly⟩, hrest⟩ := h.flows hcode
  have heq := Flow.Only.eq (h.parked_none hcode Instr.noConfusion) honly
  have hrest : Flows rest (a (s.cur c)) := hrest.resolve_left id
  simp only [instr]
  cases hq : (s.cpu c).proc with
  | none => exact h.stay hrest
  | some q =>
    dsimp only
    split
    · apply h.stay
      have hproc : (a (s.cur c)).proc = true := by
        rw [h.threads.kind, cur_proc hq]
        rfl
      rw [heq] at hrest ⊢
      exact .yield hproc hrest
    · exact h.stay hrest

end Control

/-! ### Sleep locks -/

section Sleep

theorem await (h : Wf s a) (hcode : s.code c = .await i :: rest) : ∃ a', Wf (s.instr c rest (.await i)) a' := by
  obtain ⟨⟨hpark, honly, hproc⟩, hrest⟩ := h.flows hcode
  have hnone := h.parked_none hcode Instr.noConfusion
  have heq := honly.eq hnone
  have hrest : Flows rest { a (s.cur c) with free := some i } := hrest.resolve_left id
  have hlk : .lk i ∈ (a (s.cur c)).held := by
    rw [honly.2.1]
    exact Finset.mem_singleton_self _
  simp only [instr]
  split
  · rename_i hlocked
    have hflows : Flows (Locks.sleep (.sleeplock i) (.lk i) ++ .await i :: rest)
        { a (s.cur c) with bound := some i } := by
      obtain ⟨hextra, hheld, hnamed, hfree, howes, -⟩ := honly
      refine Flows.sleep (a := { a (s.cur c) with bound := some i }) (l := .lk i) Lock.noConfusion trivial hproc
        ⟨hextra, hheld, hnamed, hfree, howes, rfl⟩ hnone ?_
      refine .cons rfl Instr.noConfusion ⟨Flow.only_holds, hproc⟩ ?_
      rw [heq] at hrest
      exact hrest
    refine ⟨_, h.jump (b := { a (s.cur c) with bound := some i }) hflows ?_ rfl rfl subset_rfl rfl rfl rfl ?_⟩
    · have hok := h.threads.ok (s.cur c)
      refine .of_none hnone hok.named hok.free hok.owes fun j hj => ?_
      rw [← Option.some.inj hj]
      exact .inl hlk
    · apply h.sleeps_turn (goes_goto s c _)
      · intro j hj
        obtain ⟨q, hq, hs⟩ := h.sleeps.owns _ j hj
        exact ⟨q, hq, by rw [goto_sleep, hs]⟩
      · exact fun _ _ _ _ => by rw [goto_sleep]
      · intro j hj
        rw [goto_sleep]
        exact h.sleeps.free c j hj
      · exact fun _ _ _ _ => by rw [goto_sleep]
      · intro j hj
        rw [goto_sleep]
        exact .inl hj
      · exact fun _ hj => hj
      · intro j hj
        rw [← Option.some.inj hj]
        exact .inr hlocked
  · rename_i hlocked
    refine ⟨_, h.jump (b := { a (s.cur c) with free := some i }) hrest ?_ rfl rfl subset_rfl rfl rfl rfl ?_⟩
    · exact (h.threads.ok (s.cur c)).next (h.flows hcode).1
    · apply h.sleeps_turn (goes_goto s c _)
      · intro j hj
        obtain ⟨q, hq, hs⟩ := h.sleeps.owns _ j hj
        exact ⟨q, hq, by rw [goto_sleep, hs]⟩
      · exact fun _ _ _ _ => by rw [goto_sleep]
      · intro j hj
        rw [goto_sleep, ← Option.some.inj hj]
        exact Bool.eq_false_iff.mpr hlocked
      · exact fun _ _ _ _ => by rw [goto_sleep]
      · intro j hj
        rw [goto_sleep]
        exact .inl hj
      · exact fun _ hj => hj
      · exact fun _ hj => .inl hj

theorem readHeld (h : Wf s a) (hcode : s.code c = .readHeld i :: rest) :
    ∃ a', Wf (s.instr c rest (.readHeld i)) a' := by
  obtain ⟨⟨-, honly, hproc⟩, hrest⟩ := h.flows hcode
  have hnone := h.parked_none hcode Instr.noConfusion
  obtain ⟨q, hq⟩ := h.proc hproc
  simp only [instr, withProc, hq]
  split
  · rename_i hheld
    refine ⟨_, h.jump (b := { a (s.cur c) with owns := insert i (a (s.cur c)).owns }) (hrest.resolve_left id) ?_
      rfl rfl subset_rfl rfl rfl rfl ?_⟩
    · exact (h.threads.ok (s.cur c)).next (h.flows hcode).1
    · apply h.sleeps_turn (goes_goto s c _)
      · intro j hj
        rw [goto_sleep]
        rcases Finset.mem_insert.mp hj with rfl | hj
        · refine ⟨q, cur_proc hq, ?_⟩
          rw [← hheld.1, ← hheld.2]
        · exact h.sleeps.owns _ j hj
      · exact fun _ _ _ _ => by rw [goto_sleep]
      · intro j hj
        rw [goto_sleep]
        exact h.sleeps.free c j hj
      · exact fun _ _ _ _ => by rw [goto_sleep]
      · intro j hj
        rw [goto_sleep]
        exact .inl hj
      · exact fun _ hj => hj
      · exact fun _ hj => .inl hj
  · refine ⟨a, h.stay ?_⟩
    rw [honly.eq hnone]
    exact .lastOne ⟨⟨iff_of_false (not_not_intro rfl) Instr.noConfusion, Flow.only_holds⟩, .inl trivial⟩

theorem take (h : Wf s a) (hcode : s.code c = .take i :: rest) : ∃ a', Wf (s.instr c rest (.take i)) a' := by
  obtain ⟨⟨-, hlk, hfree, hproc⟩, hrest⟩ := h.flows hcode
  obtain ⟨q, hq⟩ := h.proc hproc
  have hlocked := h.sleeps.free c i hfree
  have hother {j : Nat} (hj : j ≠ i) : ((s.goto c rest).setSleep i ⟨true, (s.proc q).pid⟩).sleep j = s.sleep j := by
    simp [setSleep, hj]
  have hne {j : Nat} (hj : (s.sleep j).locked = true) : j ≠ i := by
    rintro rfl
    exact absurd (hj.symm.trans hlocked) (by decide)
  simp only [instr, withProc, hq]
  have hg := (goes_goto s c rest).setSleep i ⟨true, (s.proc q).pid⟩
  refine ⟨_, h.goes hg (hrest.resolve_left id) ((h.threads.ok _).next (h.flows hcode).1) rfl rfl subset_rfl ?_ ?_
    (goto_panic ..)⟩
  · rw [setSleep_lock, goto_lock]
    exact h.spins.keep (fun d hd => goto_cpu_ne s c rest hd) (goto_ncli ..) (fun hd => (goto_iflag ..).trans
      (h.spins.masked c hd)) rfl rfl rfl
  · apply h.sleeps_turn hg
    · intro j hj
      rcases Finset.mem_insert.mp hj with rfl | hj
      · exact ⟨q, cur_proc hq, by simp [setSleep]⟩
      · obtain ⟨r, hr, hs⟩ := h.sleeps.owns _ j hj
        exact ⟨r, hr, by rw [hother (hne (by rw [hs])), hs]⟩
    · intro k j _ hj
      obtain ⟨r, -, hs⟩ := h.sleeps.owns _ j hj
      exact hother (hne (by rw [hs]))
    · exact fun j hj => absurd hj.symm (Option.some_ne_none j)
    · intro d j hd hj
      apply hother
      rintro rfl
      exact hd (h.spins.holds.unique ((h.threads.ok _).free j hj) hlk)
    · intro j hj
      rw [hother (hne hj)]
      exact .inl hj
    · exact fun _ hj => hj
    · exact fun _ hj => .inl hj

theorem drop (h : Wf s a) (hcode : s.code c = .drop i :: rest) : ∃ a', Wf (s.instr c rest (.drop i)) a' := by
  obtain ⟨⟨-, hlk, hown, howes, hfree⟩, hrest⟩ := h.flows hcode
  have hother {j : Nat} (hj : j ≠ i) : ((s.goto c rest).setSleep i ⟨false, 0⟩).sleep j = s.sleep j := by
    simp [setSleep, hj]
  have hg := (goes_goto s c rest).setSleep i ⟨false, 0⟩
  dsimp only [instr]
  refine ⟨_, h.goes hg (hrest.resolve_left id) ((h.threads.ok _).next (h.flows hcode).1) rfl rfl subset_rfl ?_ ?_
    (goto_panic ..)⟩
  · rw [setSleep_lock, goto_lock]
    exact h.spins.keep (fun d hd => goto_cpu_ne s c rest hd) (goto_ncli ..) (fun hd => (goto_iflag ..).trans
      (h.spins.masked c hd)) rfl rfl rfl
  · apply h.sleeps_turn hg
    · intro j hj
      obtain ⟨hne, hj⟩ := Finset.mem_erase.mp hj
      rw [hother hne]
      exact h.sleeps.owns _ j hj
    · intro k j hk hj
      apply hother
      rintro rfl
      exact hk (h.owns_inj hj hown)
    · exact fun j hj => absurd (hj.symm.trans hfree) (Option.some_ne_none j)
    · intro d j hd hj
      apply hother
      rintro rfl
      exact hd (h.spins.holds.unique ((h.threads.ok _).free j hj) hlk)
    · intro j hj
      by_cases hji : j = i
      · exact .inr (hji ▸ rfl)
      · rw [hother hji]
        exact .inl hj
    · exact fun j hj => absurd (hj.symm.trans howes) (Option.some_ne_none j)
    · exact fun _ hj => .inl hj

end Sleep

end Wf

end Xv6.Locks.Sys
