import AdvancedXv6.Jobs.Switches
import AdvancedXv6.Jobs.Reuse

/-! The counters along a run: when `prev_proc` is set where `sched` reads it, and when the counter of a process that
exits is the number of its switches. -/

namespace Xv6.Jobs
open Function

variable {k t : Kernel} {e : Event} {i j c np : Slot} {n : Int} {r : Record} {custom : Option (Int × Int)}

/-! ### Sums of an int -/

theorem int_succ (x : Int) : int (int x + 1) = int (x + 1) := by
  rw [int, int, int, Int.bmod_add_bmod]

/-! ### A step that dispatches nobody -/

/-- What is being made after the step was made before it, or has a new number. -/
theorem making_before (hk : k.Wf) (ht : t.Wf) (h : k.step e = some t) (hm : t.Making i) :
    (k.Making i ∧ (t.proc i).pid = (k.proc i).pid ∧ ¬∃ c custom b, k.cur = some c ∧
      (k.proc c).activity = .fork i custom b ∧ (e = .forkFail ∨ e = .forkFinish)) ∨
    ∀ n, n < k.nextpid → (t.proc i).pid ≠ n := by
  obtain ⟨c, custom, b, ha⟩ := hm
  have hused : (t.proc i).state ≠ .unused := (ht.fork c i custom b ha).used
  rcases making_back hk h ⟨c, custom, b, ha⟩ with ⟨hmk, hno⟩ | ⟨⟨custom', rfl⟩, hun⟩
  · obtain ⟨c', custom', b', ha'⟩ := hmk
    rcases (step_move hk h i).pid hk with ⟨hp, -⟩ | ⟨-, hs, -⟩ | ⟨-, hs⟩
    · exact .inl ⟨⟨c', custom', b', ha'⟩, hp, hno⟩
    · exact absurd hs (hk.fork c' i custom' b' ha').used
    · exact absurd hs hused
  · exact .inr fun n hn => fork_pid_ne (step_move hk h i) hun hused hn

theorem forkret_step (hk : k.Wf) (h : k.step e = some t) (hx : (t.proc i).context = .forkret) :
    (t.proc i).pid = (k.proc i).pid ∧ ((k.proc i).context = .forkret ∨ k.Making i) := by
  have hsame (hp : (t.proc i).pid = (k.proc i).pid) (hc : (t.proc i).context = (k.proc i).context) :
      (t.proc i).pid = (k.proc i).pid ∧ ((k.proc i).context = .forkret ∨ k.Making i) := ⟨hp, .inl (hc.symm.trans hx)⟩
  have hnot {x : Context} (hc : (t.proc i).context = x) (hne : x ≠ .forkret) : False := hne (hc.symm.trans hx)
  cases step_move hk h i with
  | roused h => exact hsame h.pid h.context
  | allocated _ _ hp hq => exact (hnot (x := .none) (by rw [hq]; exact hk.unused i hp) (by decide)).elim
  | failed _ _ _ _ _ hq => exact hsame (by rw [hq]) (by rw [hq])
  | copied c custom _ _ ha _ _ _ _ _ _ _ _ _ _ hp => exact ⟨hp, .inr ⟨c, custom, false, ha⟩⟩
  | finished _ _ _ _ _ hq => exact hsame (by rw [hq, initChild_pid]) (by rw [hq, initChild_context])
  | started _ _ _ hq => exact hsame (by rw [hq]) (by rw [hq])
  | slept _ _ _ _ hc | exited _ _ _ _ hc => exact (hnot hc (by decide)).elim
  | reaped _ _ _ hq => exact (hnot (x := .none) (by rw [hq]) (by decide)).elim
  | waited _ _ _ _ hq => exact hsame (by rw [hq]; rfl) (by rw [hq]; rfl)
  | ran _ _ _ _ _ hq =>
    rcases hq with hq | hq
    · exact (hnot (x := .yield) (by rw [hq]) (by decide)).elim
    · exact hsame (by rw [hq]) (by rw [hq])
  | dispatched _ _ _ _ _ _ _ _ _ _ _ _ _ _ _ hp hc =>
    rcases hc with ⟨hc | hc, -⟩ | ⟨hc, -⟩
    · exact (hnot hc (by decide)).elim
    · exact (hnot hc (by decide)).elim
    · exact hsame hp hc
  | suspended _ _ _ hq =>
    rcases hq with ⟨-, hq⟩ | ⟨-, hq⟩
    · exact hsame (by rw [hq]) (by rw [hq])
    · exact (hnot (x := .yield2) (by rw [hq]) (by decide)).elim
  | gaveUp _ _ hq =>
    rcases hq with hq | hq
    · exact (hnot (x := .yield2) (by rw [hq]) (by decide)).elim
    · exact (hnot (x := .none) (by rw [hq]) (by decide)).elim

/-- What stays of the tally when nobody is dispatched and no `fork` ends; `exited` are the processes that have exited
after the step. -/
theorem Tallied.calm (hk : k.Wf) (ht : t.Wf) (hd : k.Distinct) (hT : Tallied k r) (h : k.step e = some t)
    (he : e ≠ .scheduler) (hf : e ≠ .forkFinish) {exited : List Int}
    (hold : ∀ n ∈ r.exited, n ∈ exited)
    (hnew : ∀ n ∈ exited, n ∈ r.exited ∨ ∃ c, k.cur = some c ∧ (k.proc c).pid = n ∧ (t.proc c).state = .zombie)
    (hall : ∀ c, k.cur = some c → (t.proc c).state = .zombie → (k.proc c).pid ∈ exited) :
    Tallied t { r with exited } := by
  have hback {i : Slot} (hl : Live t { r with exited } i) : Live k r i ∧ (t.proc i).pid = (k.proc i).pid :=
    Live.back hk ht hT.created hT.making h he ⟨hl.1, hl.2⟩
  have hzombie {j : Slot} (hl : Live k r j) (hz : (t.proc j).state = .zombie) : k.cur = some j := by
    by_contra hcur
    refine hcur ((step_move hk h j).zombie (fun hs => ?_) hz).1
    rcases hl.2 with hc | hx
    · exact hcur hc
    · exact hx.2 (hk.zombie j hs)
  have hcount := step_counted h he hf
  have hswitches (i : Slot) : (t.proc i).contextSwitches = (k.proc i).contextSwitches :=
    hcount.elim (fun h => h.switches i) fun h => h.switches i
  have hkept {j : Slot} (hp : t.prevProc = some j) : k.prevProc = some j ∧ (t.proc j).state ≠ .zombie := by
    rcases hcount with hu | hy
    · have hk' : k.prevProc = some j := hu.prev.symm.trans hp
      refine ⟨hk', fun hz => ?_⟩
      have hrun := (ht.running j).mpr (hu.cur.trans (hzombie (hT.prev j hk').1 hz))
      cases hz.symm.trans hrun
    · rw [hy.prev, Option.filter_eq_some_iff, decide_eq_true_eq] at hp
      exact hp
  refine ⟨fun n hn => ⟨(hT.created n hn).1, (hT.created n hn).2.trans_le (step_nextpid hk h)⟩, fun i hm => ?_, hT.dispatched,
    fun n hn => ?_, fun i hx d hd => ?_, hT.once, fun i hl hmem => ?_, fun i hl => ?_, fun j hp => ?_, fun n hb hno => ?_,
    fun c hc => ?_⟩
  · rcases making_before hk ht h hm with ⟨hmk, hpid, -⟩ | hfresh
    · rw [hpid]
      exact hT.making i hmk
    · exact fun hin => hfresh _ (hT.created _ hin).2 rfl
  · rcases hnew n hn with hn | ⟨c, hc, rfl, -⟩
    · exact hT.exited n hn
    · exact (hT.running c hc).1
  · obtain ⟨hpid, hx | hmk⟩ := forkret_step hk h hx
    · rw [hpid]
      exact hT.fresh i hx d hd
    · rw [hpid]
      exact fun heq => hT.making i hmk (heq ▸ hT.dispatched d hd)
  · obtain ⟨hl', hpid⟩ := hback hl
    rcases hnew _ hmem with hn | ⟨c, hc, hn, hz⟩
    · exact hT.alive i hl' (hpid ▸ hn)
    · have hi : i = c := by
        by_contra hne
        have hzero := hd i c hne (hpid.symm.trans hn.symm)
        exact absurd (hzero ▸ (hT.created _ hl'.1).1) (lt_irrefl _)
      subst hi
      rcases hl.2 with hcur | hx
      · cases hz.symm.trans ((ht.running i).mpr hcur)
      · exact hx.2 (ht.zombie i hz)
  · obtain ⟨hl', hpid⟩ := hback hl
    rw [hpid, hswitches]
    exact hT.counter i hl'
  · obtain ⟨hk', hz⟩ := hkept hp
    obtain ⟨hl, hlast⟩ := hT.prev j hk'
    obtain ⟨hl', hpid⟩ := hl.forth hk ht h he hz
    exact ⟨hl', hpid ▸ hlast⟩
  · obtain ⟨j, hj⟩ := hT.back n hb fun hn => hno (hold n hn)
    obtain ⟨hl, hlast⟩ := hT.prev j hj
    refine ⟨j, ?_⟩
    rcases hcount with hu | hy
    · exact hu.prev.trans hj
    · rw [hy.prev, Option.filter_eq_some_iff, decide_eq_true_eq]
      refine ⟨hj, fun hz => hno ?_⟩
      rw [Option.some.inj (hb.symm.trans hlast)]
      exact hall j (hzombie hl hz) hz
  · have hc' := cur_back hk ht h he hc
    obtain ⟨hin, d, l, hl, hpid⟩ := hT.running c hc'
    have hrun : (t.proc c).state ≠ .zombie := fun hz => by cases hz.symm.trans ((ht.running c).mpr hc)
    obtain ⟨hl', hp⟩ := Live.forth (r := r) hk ht h he ⟨hin, .inl hc'⟩ hrun
    exact ⟨hl'.1, d, l, hl, hpid.trans hp.symm⟩

/-- A process whose number is the one of a complete process is that process. -/
theorem Tallied.slot_eq (hd : k.Distinct) (hT : Tallied k r) (hl : (k.proc i).pid ∈ r.created)
    (hp : (k.proc i).pid = (k.proc j).pid) : i = j := by
  by_contra hne
  exact absurd (hd i j hne hp ▸ (hT.created _ hl).1) (lt_irrefl _)

/-! ### A dispatch -/

/-- What a dispatch of `c` does to the table. -/
structure Dispatches (k : Kernel) (c : Slot) (t : Kernel) : Prop where
  pid : ∀ i, (t.proc i).pid = (k.proc i).pid
  others : ∀ i, i ≠ c → (t.proc i).context = (k.proc i).context
  context : (k.proc c).context ≠ .none ∧ (k.proc c).context ≠ .exit
  runs : (t.proc c).context = .none ∨ (t.proc c).context = .yield
  idle : k.cur = none
  cur : t.cur = some c

theorem dispatches_of_step (hk : k.Wf) (h : k.step .scheduler = some t) (hp : t.panicked = false)
    (hh : k.prioritise.highest = some c) : Dispatches k c t := by
  have hmove (i : Slot) : (t.proc i).pid = (k.proc i).pid ∧ (i ≠ c → (t.proc i).context = (k.proc i).context) ∧
      ((k.proc i).context ≠ .none ∧ (k.proc i).context ≠ .exit → i = c →
        (t.proc i).context = .none ∨ (t.proc i).context = .yield ∨ (t.proc i).state ≠ .running) := by
    cases step_move hk h i with
    | roused hr =>
      refine ⟨hr.pid, fun _ => hr.context, fun _ _ => .inr (.inr fun hs => ?_)⟩
      rcases hr.state with hs' | ⟨-, hs'⟩
      · have hcur := (hk.running i).mp (hs'.symm.trans hs)
        obtain ⟨-, -, hperf⟩ := Kernel.step_some h
        rw [Kernel.perform, if_neg fun hnone => Option.some_ne_none i (hcur.symm.trans hnone)] at hperf
        cases hperf
      · cases hs'.symm.trans hs
    | dispatched _ _ hi _ _ _ _ _ _ _ _ _ _ _ _ hpid hx =>
      have hic : i = c := Option.some.inj (hi.symm.trans hh)
      refine ⟨hpid, fun hne => absurd hic hne, fun hplace _ => ?_⟩
      rcases hx with ⟨hx | hx, -⟩ | ⟨-, hx⟩
      · exact .inl hx
      · exact .inr (.inl hx)
      · exact (hx.elim hplace.1 hplace.2).elim
    | allocated _ he | failed _ _ he | copied _ _ he | finished _ _ he | started he | exited he | reaped he => cases he
    | waited _ _ he | ran _ _ he | suspended he | gaveUp he => cases he
    | slept he => rcases he with he | ⟨x, he⟩ <;> cases he
  cases step_turn hk h with
  | dispatches c' _ hc hh' hsame hpan hs =>
    obtain rfl := Option.some.inj (hh.symm.trans hh')
    have hplace : (k.proc c).context ≠ .none ∧ (k.proc c).context ≠ .exit :=
      not_or.mp fun hx => Bool.false_ne_true (hp.symm.trans (hpan.mpr hx))
    refine ⟨fun i => (hmove i).1, fun i => (hmove i).2.1, hplace, ?_, hc, hsame.cur⟩
    rcases (hmove c).2.2 hplace rfl with hx | hx | hx
    · exact .inl hx
    · exact .inr hx
    · exact absurd hs hx
  | idles _ _ hnone => exact absurd (hnone.symm.trans hh) (Option.some_ne_none c).symm
  | stays he => rcases he with he | he <;> cases he
  | leaves _ he => rcases he with he | he | ⟨x, he⟩ <;> cases he
  | asks he | panics he | ticks _ he | returns _ he => cases he

/-- What the dispatch of a complete process adds to the tally. -/
theorem Tallied.dispatch (hk : k.Wf) (ht : t.Wf) (hd : k.Distinct) (hT : Tallied k r) (h : k.step .scheduler = some t)
    (hh : k.prioritise.highest = some c) (hD : Dispatches k c t) (hin : (k.proc c).pid ∈ r.created) :
    Tallied t { r with
      dispatches := ⟨(k.proc c).pid, decide ((k.proc c).context = .forkret)⟩ :: r.dispatches } := by
  have ht' : t = k.scheduler := by
    obtain ⟨-, -, hperf⟩ := Kernel.step_some h
    rw [Kernel.perform, if_pos hD.idle] at hperf
    exact (Option.some.inj hperf).symm
  have hcounted := dispatch_counted hh hD.context
  rw [← ht'] at hcounted
  have hback {r' : Record} (hr : r'.created = r.created) {i : Slot} (hl : Live t r' i) : Live k r i := by
    refine ⟨hr ▸ hD.pid i ▸ hl.1, .inr ?_⟩
    by_cases hi : i = c
    · exact hi ▸ hD.context
    · rcases hl.2 with hcur | hx
      · exact absurd (Option.some.inj (hD.cur.symm.trans hcur)).symm hi
      · exact hD.others i hi ▸ hx
  have hforth {r' : Record} (hr : r'.created = r.created) {i : Slot} (hl : Live k r i) : Live t r' i := by
    refine ⟨hr ▸ (hD.pid i).symm ▸ hl.1, ?_⟩
    by_cases hi : i = c
    · exact .inl (hi ▸ hD.cur)
    · refine .inr ((hD.others i hi).symm ▸ hl.2.resolve_left fun hcur => ?_)
      exact Option.some_ne_none i (hcur.symm.trans hD.idle)
  have hprev {i : Slot} (hl : Live k r i) : k.prevProc = some i ↔ lastBack r.dispatches = some (k.proc i).pid := by
    refine ⟨fun hp => (hT.prev i hp).2, fun hb => ?_⟩
    obtain ⟨j, hj⟩ := hT.back _ hb (hT.alive i hl)
    rwa [← hT.slot_eq hd hl.1 (Option.some.inj (hb.symm.trans (hT.prev j hj).2))] at hj
  have hnew {i : Slot} (hx : (t.proc i).context = .forkret) : i ≠ c ∧ (k.proc i).context = .forkret := by
    have hne : i ≠ c := fun hi => by
      subst hi
      rcases hD.runs with hr | hr <;> cases hr.symm.trans hx
    exact ⟨hne, (hD.others i hne).symm.trans hx⟩
  refine ⟨fun n hn => ⟨(hT.created n hn).1, (hT.created n hn).2.trans_le (step_nextpid hk h)⟩, fun i hm => ?_, fun d hd' => ?_,
    hT.exited, fun i hx d hd' => ?_, ?_, fun i hl => ?_, fun i hl => ?_, fun j hp => ?_, fun n hb hno => ?_, fun c' hc => ?_⟩
  · rcases making_before hk ht h hm with ⟨hmk, hpid, -⟩ | hfresh
    · rw [hpid]
      exact hT.making i hmk
    · exact fun hin => hfresh _ (hT.created _ hin).2 rfl
  · rcases List.mem_cons.mp hd' with rfl | hd'
    · exact hin
    · exact hT.dispatched d hd'
  · obtain ⟨hne, hx⟩ := hnew hx
    rw [hD.pid]
    rcases List.mem_cons.mp hd' with rfl | hd'
    · exact fun heq => hne (hT.slot_eq hd hin heq).symm
    · exact hT.fresh i hx d hd'
  · exact List.pairwise_cons.mpr ⟨fun u hu hfirst => hT.fresh c (of_decide_eq_true hfirst) u hu, hT.once⟩
  · rw [hD.pid]
    exact hT.alive i (hback rfl hl)
  · have hl := hback rfl hl
    obtain ⟨x, hx, hsum⟩ := hT.counter i hl
    rw [hD.pid]
    by_cases hfirst : (k.proc c).context = .forkret
    · rw [(hcounted.1 hfirst).2 i]
      exact ⟨x, hx, balance_first (decide_eq_true hfirst) (hT.fresh c hfirst) hsum⟩
    · refine ⟨_, ?_, balance_back (decide_eq_false hfirst) hT.once hsum⟩
      rw [(hcounted.2 hfirst).2 i, counted]
      by_cases hcounts : k.prevProc = some i ∧ (k.proc i).pid ≠ (k.proc c).pid
      · rw [if_pos hcounts, if_pos ⟨(hprev hl).mp hcounts.1, hcounts.2⟩, hx, int_succ, Nat.cast_succ]
      · rw [if_neg hcounts, if_neg fun hand => hcounts ⟨(hprev hl).mpr hand.1, hand.2⟩, hx, Nat.add_zero]
  · by_cases hfirst : (k.proc c).context = .forkret
    · rw [(hcounted.1 hfirst).1] at hp
      obtain ⟨hl, hb⟩ := hT.prev j hp
      refine ⟨hforth rfl hl, ?_⟩
      rw [lastBack, if_pos (decide_eq_true hfirst), hD.pid]
      exact hb
    · obtain rfl := Option.some.inj ((hcounted.2 hfirst).1.symm.trans hp)
      refine ⟨hforth rfl ⟨hin, .inr hD.context⟩, ?_⟩
      rw [lastBack, if_neg fun hf => hfirst (of_decide_eq_true hf), hD.pid]
  · by_cases hfirst : (k.proc c).context = .forkret
    · rw [(hcounted.1 hfirst).1]
      rw [lastBack, if_pos (decide_eq_true hfirst)] at hb
      exact hT.back n hb hno
    · exact ⟨c, (hcounted.2 hfirst).1⟩
  · obtain rfl := Option.some.inj (hD.cur.symm.trans hc)
    rw [hD.pid]
    exact ⟨hin, _, _, rfl, rfl⟩

/-! ### The other steps -/

/-- The end of `fork` makes a process complete. -/
theorem Tallied.create (hk : k.Wf) (ht : t.Wf) (hn : k.Numbered) (hd : k.Distinct) (hT : Tallied k r)
    (h : k.step .forkFinish = some t) (hc : k.cur = some c) (ha : (k.proc c).activity = .fork np custom true) :
    Tallied t { r with created := (k.proc np).pid :: r.created } := by
  have hmk : k.Making np := ⟨c, custom, true, ha⟩
  have hnot : (k.proc np).pid ∉ r.created := hT.making np hmk
  have hpos : 0 < (k.proc np).pid ∧ (k.proc np).pid < k.nextpid := by
    have hused := hn.used np (hk.fork c np custom true ha).used
    have hrange := hn.pid np
    omega
  obtain ⟨c', np', custom', hc', ha', hzero, hothers, hprev⟩ := forkFinish_counted hk h
  obtain rfl := Option.some.inj (hc.symm.trans hc')
  cases ha.symm.trans ha'
  have ht' : t = k.forkFinish c np custom := by
    obtain ⟨-, -, hperf⟩ := Kernel.step_some h
    obtain ⟨c', np', custom', hc', ha', ht'⟩ := Kernel.goOnFork_some hperf
    obtain rfl := Option.some.inj (hc.symm.trans hc')
    cases ha.symm.trans ha'
    exact ht'
  have hcur : t.cur = k.cur := (same_of_quiet (e := .forkFinish) trivial h).cur
  have hpid (i : Slot) : (t.proc i).pid = (k.proc i).pid := by
    rw [ht', Kernel.forkFinish, proj_modify (π := Proc.pid) fun _ => by rfl]
    exact proj_modify fun _ => initChild_pid
  have hcontext (i : Slot) : (t.proc i).context = (k.proc i).context := by
    rw [ht', Kernel.forkFinish, proj_modify (π := Proc.context) fun _ => by rfl]
    exact proj_modify fun _ => initChild_context
  have hnp {i : Slot} (heq : (k.proc i).pid = (k.proc np).pid) : i = np := by
    by_contra hne
    exact absurd (heq ▸ hd i np hne heq ▸ hpos.1) (lt_irrefl _)
  have hback {i : Slot} (hl : Live t { r with created := (k.proc np).pid :: r.created } i) : i = np ∨ i ≠ np ∧ Live k r i := by
    obtain ⟨hin, hplace⟩ := hl
    rw [hpid] at hin
    rw [hcur, hcontext] at hplace
    rcases List.mem_cons.mp hin with heq | hin
    · exact .inl (hnp heq)
    · exact .inr ⟨fun hi => hnot (hi ▸ hin), hin, hplace⟩
  refine ⟨fun n hn => ?_, fun i hm => ?_, fun d hd' => List.mem_cons_of_mem _ (hT.dispatched d hd'),
    fun n hn => List.mem_cons_of_mem _ (hT.exited n hn), fun i hx d hd' => ?_, hT.once, fun i hl => ?_, fun i hl => ?_,
    fun j hp => ?_, fun n hb hno => ?_, fun c' hc' => ?_⟩
  · have hle := step_nextpid hk h
    rcases List.mem_cons.mp hn with rfl | hn
    · exact ⟨hpos.1, hpos.2.trans_le hle⟩
    · exact ⟨(hT.created n hn).1, (hT.created n hn).2.trans_le hle⟩
  · rcases making_before hk ht h hm with ⟨hmk, hp, hno⟩ | hfresh
    · rw [hp]
      intro hin
      rcases List.mem_cons.mp hin with heq | hin
      · obtain rfl := hnp heq
        exact hno ⟨c, custom, true, hc, ha, .inr rfl⟩
      · exact hT.making i hmk hin
    · intro hin
      rcases List.mem_cons.mp hin with heq | hin
      · exact hfresh _ hpos.2 heq
      · exact hfresh _ (hT.created _ hin).2 rfl
  · rw [hpid]
    exact hT.fresh i ((hcontext i).symm.trans hx) d hd'
  · rw [hpid]
    rcases hback hl with rfl | ⟨-, hl⟩
    · exact fun hin => hnot (hT.exited _ hin)
    · exact hT.alive i hl
  · rw [hpid]
    rcases hback hl with rfl | ⟨hne, hl⟩
    · obtain ⟨hs, hm, hpend⟩ := zero_of_not_mem (h := r.dispatches) fun d hd' (heq : d.pid = (k.proc i).pid) => hnot (heq ▸ hT.dispatched d hd')
      refine ⟨0, hzero.trans (int_of_lt (by decide) (by decide)).symm, ?_⟩
      rw [hs, hm, hpend]
    · rw [hothers i hne]
      exact hT.counter i hl
  · obtain ⟨hl, hb⟩ := hT.prev j (hprev.symm.trans hp)
    rw [hpid]
    refine ⟨⟨?_, ?_⟩, hb⟩
    · rw [hpid]
      exact List.mem_cons_of_mem _ hl.1
    · rw [hcur, hcontext]
      exact hl.2
  · rw [hprev]
    exact hT.back n hb hno
  · rw [hpid]
    obtain ⟨hin, hd'⟩ := hT.running c' (hcur.symm.trans hc')
    exact ⟨List.mem_cons_of_mem _ hin, hd'⟩

/-- The scheduler finds nobody. -/
theorem Tallied.idle (hT : Tallied k r) : Tallied k.prioritise r := by
  have hproc (i : Slot) : (k.prioritise.proc i).pid = (k.proc i).pid ∧
      (k.prioritise.proc i).context = (k.proc i).context ∧
      (k.prioritise.proc i).contextSwitches = (k.proc i).contextSwitches ∧
      (k.prioritise.proc i).activity = (k.proc i).activity := by
    obtain ⟨n, hn⟩ := Kernel.prioritise_proc (k := k) (i := i)
    rw [hn]
    exact ⟨rfl, rfl, rfl, rfl⟩
  have hpid (i : Slot) := (hproc i).1
  have hlive {i : Slot} : Live k.prioritise r i ↔ Live k r i := by
    rw [Live, Live, hpid, (hproc i).2.1]
    exact Iff.rfl
  refine ⟨hT.created, fun i hm => ?_, hT.dispatched, hT.exited, fun i hx => ?_, hT.once, fun i hl => ?_, fun i hl => ?_,
    fun j hp => ?_, hT.back, fun c hc => ?_⟩
  · obtain ⟨c, custom, b, ha⟩ := hm
    rw [hpid]
    exact hT.making i ⟨c, custom, b, (hproc c).2.2.2.symm.trans ha⟩
  · rw [hpid]
    exact hT.fresh i ((hproc i).2.1.symm.trans hx)
  · rw [hpid]
    exact hT.alive i (hlive.mp hl)
  · rw [hpid, (hproc i).2.2.1]
    exact hT.counter i (hlive.mp hl)
  · rw [hpid]
    exact ⟨hlive.mpr (hT.prev j hp).1, (hT.prev j hp).2⟩
  · rw [hpid]
    exact hT.running c hc

/-- The scheduler dispatches complete processes only. -/
def InOrder (s : Kernel × Record) (e : Event) (s' : Kernel × Record) : Prop :=
  e = .scheduler → ∀ c, s'.1.cur = some c → (s.1.proc c).pid ∈ s.2.created

instance (s : Kernel × Record) (e : Event) (s' : Kernel × Record) : Decidable (InOrder s e s') :=
  inferInstanceAs (Decidable (_ → _))

theorem Tallied.step (hk : k.Wf) (hn : k.Numbered) (hd : k.Distinct) (hT : Tallied k r) (h : k.step e = some t)
    (hp : t.panicked = false) (ho : InOrder (k, r) e (t, r.note k e t)) : Tallied t (r.note k e t) := by
  have ht := hk.step h hp
  have hquiet (he : e ≠ .scheduler) (hf : e ≠ .forkFinish) (hx : e ≠ .exit) : Tallied t r := by
    have hno (c : Slot) (hc : k.cur = some c) : (t.proc c).state ≠ .zombie := fun hz => by
      refine hx ((step_move hk h c).zombie (fun hs => ?_) hz).2.2
      cases hs.symm.trans ((hk.running c).mpr hc)
    exact hT.calm hk ht hd h he hf (fun _ hn => hn) (fun _ hn => .inl hn) fun c hc hz => absurd hz (hno c hc)
  cases e with
  | scheduler =>
    cases step_turn hk h with
    | dispatches c _ hc hh hsame =>
      have hD := dispatches_of_step hk h hp hh
      have hnote : r.note k .scheduler t = { r with
          dispatches := ⟨(k.proc c).pid, decide ((k.proc c).context = .forkret)⟩ :: r.dispatches } := by
        unfold Record.note
        rw [hD.cur]
      rw [hnote]
      exact hT.dispatch hk ht hd h hh hD (ho rfl c hD.cur)
    | idles _ hc hnone hsame =>
      have ht' : t = k.prioritise := by
        obtain ⟨-, -, hperf⟩ := Kernel.step_some h
        rw [Kernel.perform, if_pos hc] at hperf
        rw [← Option.some.inj hperf, Kernel.scheduler, hnone]
      have hnote : r.note k .scheduler t = r := by
        unfold Record.note
        rw [hsame.cur, hc]
      rw [hnote, ht']
      exact hT.idle
    | stays he => rcases he with he | he <;> cases he
    | leaves _ he => rcases he with he | he | ⟨x, he⟩ <;> cases he
    | asks he | panics he | ticks _ he | returns _ he => cases he
  | exit =>
    cases step_turn hk h with
    | leaves c _ hc hsame =>
      have hz : (t.proc c).state = .zombie := by
        obtain ⟨-, -, hperf⟩ := Kernel.step_some h
        obtain ⟨c', hc', -, rfl⟩ := Kernel.goOn_some hperf
        obtain rfl := Option.some.inj (hc.symm.trans hc')
        by_cases hi : c = k.initproc
        · rw [Kernel.exit, if_pos hi] at hp
          cases hp
        · rw [Kernel.exit, if_neg hi, Kernel.sched_proc, if_pos rfl, Kernel.modify_proc]
      have hnote : r.note k .exit t = { r with exited := (k.proc c).pid :: r.exited } := by
        unfold Record.note
        rw [hc]
      rw [hnote]
      refine hT.calm hk ht hd h (by simp) (by simp) (fun _ hn => List.mem_cons_of_mem _ hn) (fun n hn => ?_) fun c' hc' _ => ?_
      · rcases List.mem_cons.mp hn with rfl | hn
        · exact .inr ⟨c, hc, rfl, hz⟩
        · exact .inl hn
      · obtain rfl := Option.some.inj (hc.symm.trans hc')
        exact List.mem_cons_self
    | panics _ hpan => rw [hpan] at hp; cases hp
    | stays he => rcases he with he | he <;> cases he
    | asks he | ticks _ he | returns _ he | idles he | dispatches _ he => cases he
  | forkFinish =>
    obtain ⟨c, np, custom, hc, ha, -⟩ := forkFinish_counted hk h
    have hnote : r.note k .forkFinish t = { r with created := (k.proc np).pid :: r.created } := by
      unfold Record.note
      rw [hc]
      dsimp only
      rw [ha]
    rw [hnote]
    exact hT.create hk ht hn hd h hc ha
  | fork _ | forkFail | forkCopy | wait | kill _ | schedulerStart | exec _ _ | signal _ | sleep _ | enter _ | trapEnd _ _
  | fault _ | wakeup _ | ctrlB | ctrlC | ctrlF | ctrlG | timer _ | afterYield =>
    exact hquiet (by simp) (by simp) (by simp)

/-! ### Runs -/

theorem tallied_boot : Tallied recBoot.1 recBoot.2 where
  created n hn := by
    rw [List.mem_singleton.mp hn]
    decide
  making := by
    rintro i ⟨c, custom, b, ha⟩
    cases (boot_proc c).1.symm.trans ha
  dispatched d hd := absurd hd List.not_mem_nil
  exited n hn := absurd hn List.not_mem_nil
  fresh i _ d hd := absurd hd List.not_mem_nil
  once := .nil
  alive i _ := List.not_mem_nil
  counter i _ := by
    refine ⟨0, ?_, rfl⟩
    rw [Nat.cast_zero, int_of_lt (by decide) (by decide)]
    change (if i.val = 0 then _ else _ : Proc).contextSwitches = 0
    split <;> rfl
  prev j hp := absurd hp (Option.some_ne_none j).symm
  back n hb := absurd hb (Option.some_ne_none n).symm
  running c hc := absurd hc (Option.some_ne_none c).symm

theorem recStep_some {s s' : Kernel × Record} (h : recStep s e = some s') :
    s.1.step e = some s'.1 ∧ s'.2 = s.2.note s.1 e s'.1 := by
  obtain ⟨t, ht, rfl⟩ := Option.map_eq_some_iff.mp h
  exact ⟨ht, rfl⟩

/-- `prev_proc` is set when `sched` is entered. -/
def PrevSet (s : Kernel × Record) (_ : Event) (s' : Kernel × Record) : Prop :=
  s.1.cur ≠ none → s'.1.cur = none → s.1.prevProc ≠ none

instance (s : Kernel × Record) (e : Event) (s' : Kernel × Record) : Decidable (PrevSet s e s') :=
  inferInstanceAs (Decidable (_ → _))

/-- When `sched` is entered, some process has come back inside it, and the last one that has is not gone. -/
def SomeoneBack (s : Kernel × Record) (_ : Event) (s' : Kernel × Record) : Prop :=
  s.1.cur ≠ none → s'.1.cur = none → ∃ n ∈ lastBack s.2.dispatches, n ∉ s.2.exited

instance (s : Kernel × Record) (e : Event) (s' : Kernel × Record) : Decidable (SomeoneBack s e s') :=
  inferInstanceAs (Decidable (_ → _))

/-- A process that exits has its switches in its counter. -/
def CountsRight (s : Kernel × Record) (e : Event) (s' : Kernel × Record) : Prop :=
  e = .exit → s'.1.panicked = false → ∀ c, s.1.cur = some c →
    (s.1.proc c).contextSwitches = switches (s.1.proc c).pid s.2.dispatches

instance (s : Kernel × Record) (e : Event) (s' : Kernel × Record) : Decidable (CountsRight s e s') :=
  inferInstanceAs (Decidable (_ → _))

/-- A process that exits has been counted each time, and the sum is an `int`. -/
def NothingMissed (s : Kernel × Record) (e : Event) (s' : Kernel × Record) : Prop :=
  e = .exit → s'.1.panicked = false → ∀ c, s.1.cur = some c →
    missed (s.1.proc c).pid s.2.dispatches = 0 ∧ switches (s.1.proc c).pid s.2.dispatches < 2 ^ 31

instance (s : Kernel × Record) (e : Event) (s' : Kernel × Record) : Decidable (NothingMissed s e s') :=
  inferInstanceAs (Decidable (_ → _))

theorem prevSet_iff {s s' : Kernel × Record} (hT : Tallied s.1 s.2) : PrevSet s e s' ↔ SomeoneBack s e s' := by
  refine forall₂_congr fun _ _ => ⟨fun hp => ?_, fun hb hp => ?_⟩
  · obtain ⟨j, hj⟩ := Option.ne_none_iff_exists'.mp hp
    obtain ⟨hl, hlast⟩ := hT.prev j hj
    exact ⟨_, hlast, hT.alive j hl⟩
  · obtain ⟨n, hlast, hno⟩ := hb
    obtain ⟨j, hj⟩ := hT.back n hlast hno
    exact Option.some_ne_none j (hj.symm.trans hp)

/-- The counter of the running process shows what has not been missed. -/
theorem Tallied.running_count (hT : Tallied k r) (hc : k.cur = some c) : ∃ x : Nat, (k.proc c).contextSwitches = int x ∧
    switches (k.proc c).pid r.dispatches = x + missed (k.proc c).pid r.dispatches := by
  obtain ⟨hin, d, h, hdisp, hpid⟩ := hT.running c hc
  obtain ⟨x, hx, hsum⟩ := hT.counter c ⟨hin, .inl hc⟩
  have hpending : pending (k.proc c).pid r.dispatches = 0 := by
    rw [hdisp, pending]
    refine if_neg fun hand => ?_
    obtain ⟨hfirst, hb⟩ := hand
    rw [lastBack, if_pos hfirst] at hb
    obtain ⟨u, hu, hup⟩ := mem_of_lastBack hb
    have honce := hT.once
    rw [hdisp] at honce
    exact (List.pairwise_cons.mp honce).1 u hu hfirst (hup.trans hpid.symm)
  rw [hpending] at hsum
  exact ⟨x, hx, hsum⟩

theorem int_eq_iff {x y m : Nat} (h : y = x + m) : int x = y ↔ m = 0 ∧ y < 2 ^ 31 := by
  constructor
  · intro heq
    have hlt : int x < 2 ^ 31 := by
      unfold int
      exact Int.bmod_lt (by decide)
    have hx : int x = x := int_of_lt (by omega) (by omega)
    omega
  · rintro ⟨hm, hlt⟩
    rw [int_of_lt (by omega) (by omega)]
    omega

theorem countsRight_iff {s s' : Kernel × Record} (hT : Tallied s.1 s.2) : CountsRight s e s' ↔ NothingMissed s e s' := by
  refine forall₂_congr fun _ _ => forall₂_congr fun c hc => ?_
  obtain ⟨x, hx, hsum⟩ := hT.running_count hc
  rw [hx]
  exact int_eq_iff hsum

theorem always_tallied {es : List Event} (ho : Run.Always recStep InOrder recBoot es) :
    Run.Always recStep (fun s _ _ => Tallied s.1 s.2) recBoot es := by
  refine ho.of_invariant (I := fun s => s.1.Reachable ∧ (s.1.panicked = false → Tallied s.1 s.2)) (fun s e s' hI ho hs => ?_)
    ⟨.refl _, fun _ => tallied_boot⟩
  obtain ⟨hr, hT⟩ := hI
  obtain ⟨hstep, hnote⟩ := recStep_some hs
  have hp := (Kernel.step_some hstep).1
  refine ⟨⟨hr.next hstep, fun hp' => ?_⟩, hT hp⟩
  rw [hnote]
  refine (hT hp).step (hr.wf hp) (hr.numbered hp) (hr.distinct hp) hstep hp' ?_
  rw [← hnote]
  exact ho

/-- Along a run in which only complete processes are dispatched: `sched` reads `prev_proc` unset unless a process has
come back inside it, and the counters at the exits are right unless a switch has been missed. -/
theorem switches_counted_iff {es : List Event} (ho : Run.Always recStep InOrder recBoot es) :
    (Run.Always recStep PrevSet recBoot es ↔ Run.Always recStep SomeoneBack recBoot es) ∧
    (Run.Always recStep CountsRight recBoot es ↔ Run.Always recStep NothingMissed recBoot es) := by
  have hT := always_tallied ho
  exact ⟨⟨fun h => (h.and hT).mono fun s e s' hd _ => (prevSet_iff hd.2).mp hd.1,
      fun h => (h.and hT).mono fun s e s' hd _ => (prevSet_iff hd.2).mpr hd.1⟩,
    ⟨fun h => (h.and hT).mono fun s e s' hd _ => (countsRight_iff hd.2).mp hd.1,
      fun h => (h.and hT).mono fun s e s' hd _ => (countsRight_iff hd.2).mpr hd.1⟩⟩

/-- The first process gives up the processor. -/
def firstSleep : List Event := [.scheduler, .sleep (.other 0)]

/-- The child runs for the first time, sleeps, runs again after the first process, and exits. -/
def childExit : List Event := [.scheduler, .fork none, .forkCopy, .forkFinish, .sleep (.other 0), .scheduler,
  .wakeup (.other 0), .sleep (.other 1), .scheduler, .wakeup (.other 1), .sleep (.other 0), .scheduler]

/-- `sched` is entered with `prev_proc` unset, and a process exits with a wrong counter. -/
theorem switches_wrong : ¬Run.Always recStep PrevSet recBoot firstSleep ∧
    ¬Run.Always recStep CountsRight recBoot (childExit ++ [.exit]) := by decide +kernel

/-- A process that exits in its first run has nothing to count. -/
theorem switches_counted_first : Run.Always recStep CountsRight recBoot
    [.scheduler, .fork none, .forkCopy, .forkFinish, .sleep (.other 0), .scheduler, .exit] :=
  (switches_counted_iff (by decide +kernel)).2.mpr (by decide +kernel)

end Xv6.Jobs
