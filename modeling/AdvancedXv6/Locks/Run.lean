import AdvancedXv6.Locks.Switch

/-! Every run keeps the invariant: the steps of the threads, the interrupts, and the calls that the
kernel makes. -/

namespace Xv6.Locks
open Function

/-- A thread with nothing pushed holds nothing. -/
theorem Flow.Ok.idle {a : Flow} (h : a.Ok) (hd : a.depth = 0) : a.parked = none ∧ a.Only ∅ := by
  obtain ⟨hcard, hextra⟩ := Nat.add_eq_zero_iff.mp hd
  have hheld : a.held = ∅ := Finset.card_eq_zero.mp hcard
  have hno {l : Lock} : l ∉ a.held := hheld ▸ Finset.notMem_empty l
  have hnone {o : Option Nat} (ho : ∀ i, o = some i → False) : o = none :=
    Option.eq_none_iff_forall_ne_some.mpr fun i hi => ho i hi
  refine ⟨?_, hextra, hheld, Finset.subset_empty.mp (hheld ▸ h.named), hnone fun i hi => hno (h.free i hi),
    hnone fun i hi => hno (h.owes i hi), hnone fun i hi => (h.bound i hi).elim hno hno⟩
  by_contra hp
  have hone := (h.parked hp).1.depth
  rw [hd] at hone
  exact absurd hone (by simp)

namespace Sys
variable {C : Type} [DecidableEq C] {s t : Sys C} {a : Thread C → Flow} {c : C} {rest : Code} {x : Instr} {e : Event C}

/-- What the events do. -/
inductive Takes (s : Sys C) : Event C → Sys C → Prop
  | exec {c : C} {x : Instr} {rest : Code} (hcode : s.code c = x :: rest) : Takes s (.exec c) (s.instr c rest x)
  | interrupt {c : C} {irq : Irq} {y : Cpu} {code : Code} (hi : (s.cpu c).iflag = true)
      (hcode : code = irq.code ++ irq.tail ((s.cpu c).proc.isSome && (s.code c).isEmpty) ++ s.code c)
      (hy : y = { (s.goto c code).cpu c with iflag := false }) : Takes s (.interrupt c irq) ((s.goto c code).setCpu c y)
  | syscall {c : C} {q : Slot} (hq : (s.cpu c).proc = some q) (hcode : s.code c = []) :
      Takes s (.syscall c) (s.goto c Locks.syscall)
  | call {c : C} {r : Routine} {rest : Code} (hcode : s.code c = .busy :: rest)
      (hr : ∀ i ∈ r.unlocks, .drop i ∉ rest) : Takes s (.call c r) (s.goto c (r.code ++ .busy :: rest))
  | kfree {c : C} {rest : Code} (hcode : s.code c = .freeing :: rest) :
      Takes s (.kfree c) (s.goto c (critical .kmem ++ .freeing :: rest))

theorem step_takes (hs : s.step e = some t) : s.panic = none ∧ Takes s e t := by
  have hpanic : s.panic = none := by
    by_contra hp
    unfold step at hs
    rw [if_pos (Option.isSome_iff_ne_none.mpr hp)] at hs
    exact Option.some_ne_none t hs.symm
  refine ⟨hpanic, ?_⟩
  simp only [step, hpanic, Option.isSome_none, Bool.false_eq_true, if_false] at hs
  cases e with
  | exec c =>
    cases hcode : s.code c with
    | nil => simp [hcode] at hs
    | cons x rest =>
      simp only [hcode, Option.some.injEq] at hs
      exact hs ▸ .exec hcode
  | interrupt c irq =>
    by_cases hi : (s.cpu c).iflag = true
    · simp only [hi, if_true, Option.some.injEq] at hs
      exact hs ▸ .interrupt hi rfl rfl
    · simp [hi] at hs
  | syscall c =>
    by_cases hc : (s.cpu c).proc.isSome ∧ s.code c = []
    · simp only [hc, and_self, if_true, Option.some.injEq] at hs
      obtain ⟨q, hq⟩ := Option.isSome_iff_exists.mp hc.1
      exact hs ▸ .syscall hq hc.2
    · simp [hc] at hs
  | call c r =>
    dsimp only at hs
    split at hs
    · rename_i rest hcode
      by_cases hr : ∀ i ∈ r.unlocks, .drop i ∉ rest
      · rw [if_pos hr] at hs
        exact Option.some.inj hs ▸ .call hcode hr
      · rw [if_neg hr] at hs
        exact absurd hs.symm (Option.some_ne_none t)
    · exact absurd hs.symm (Option.some_ne_none t)
  | kfree c =>
    dsimp only at hs
    split at hs
    · rename_i rest hcode
      exact Option.some.inj hs ▸ .kfree hcode
    · exact absurd hs.symm (Option.some_ne_none t)

/-- What ends a run. -/
def Ends (s t : Sys C) : Prop := t = s.fail .notHeld ∨ t = s.fail .initExiting

namespace Wf

/-- A thread at a point of its code with nothing under way. -/
theorem at_rest (h : Wf s a) (honly : (a (s.cur c)).Only ∅) (hn : (a (s.cur c)).parked = none) {code : Code}
    (hflows : Flows code ((a (s.cur c)).holds ∅)) : Wf (s.goto c code) a := by
  apply h.stay
  rwa [honly.eq hn]

theorem exec (h : Wf s a) (hcode : s.code c = x :: rest) : (∃ a', Wf (s.instr c rest x) a') ∨ Ends s (s.instr c rest x) := by
  have hguard := (h.flows hcode).1.2
  cases x with
  | pushcli => exact .inl (h.pushcli hcode)
  | popcli => exact .inl (h.popcli hcode)
  | sti | trapret | iret =>
    have honly : (a (s.cur c)).Only ∅ := by
      first
        | exact hguard.1
        | exact hguard
    exact .inl ⟨a, h.unmask ((h.flows hcode).2.resolve_left id) honly rfl rfl rfl⟩
  | checkFree l => exact .inl (h.checkFree hcode)
  | xchg l => exact .inl (h.xchg hcode)
  | setCpu l => exact .inl (h.setCpu hcode)
  | checkHeld l => exact .inl (h.checkHeld hcode)
  | clearCpu l => exact .inl (h.clearCpu hcode)
  | clear l => exact .inl (h.clear hcode)
  | await i => exact .inl (h.await hcode)
  | take i => exact .inl (h.take hcode)
  | readHeld i => exact .inl (h.readHeld hcode)
  | drop i => exact .inl (h.drop hcode)
  | wakeup1 ch => exact .inl (h.wakeup1 hcode)
  | killLoop pid => exact .inl ⟨a, h.killLoop hcode⟩
  | stand => exact .inl (h.stand hcode)
  | doze ch => exact .inl (h.doze hcode)
  | tidy => exact .inl (h.tidy hcode)
  | leave => exact .inl (h.leave hcode)
  | sched => exact .inl (h.sched hcode)
  | restore o => exact .inl ⟨a, h.restore hcode⟩
  | alloc ok => exact .inl (h.alloc hcode)
  | ready r => exact .inl (h.ready hcode)
  | abandon r => exact .inl (h.abandon hcode)
  | scan => exact .inl (h.scan hcode)
  | freeing | busy => exact .inl ⟨a, h.pass hcode id rfl⟩
  | tryRun q => exact .inl ⟨a, h.tryRun hcode⟩
  | forever => exact .inl ⟨a, h.forever hcode⟩
  | checkInit =>
    rcases h.checkInit hcode with h | h
    · exact .inl ⟨a, h⟩
    · exact .inr (.inr h)
  | zombieExit => exact absurd hguard id
  | notHeld => exact .inr (.inl rfl)
  | exitIfKilled => exact .inl ⟨a, h.exitIfKilled hcode⟩
  | yieldIfRunning => exact .inl ⟨a, h.yieldIfRunning hcode⟩

theorem interrupt (h : Wf s a) {irq : Irq} {user : Bool} {y : Cpu} {code : Code} (hi : (s.cpu c).iflag = true)
    (hu : user = true → (s.cpu c).proc.isSome = true) (hcode : code = irq.code ++ irq.tail user ++ s.code c)
    (hy : y = { (s.goto c code).cpu c with iflag := false }) : Wf ((s.goto c code).setCpu c y) a := by
  have hdepth : (a (s.cur c)).depth = 0 := by
    by_contra hd
    have := h.spins.masked c (Nat.pos_of_ne_zero hd)
    exact absurd (hi.symm.trans this) (by decide)
  obtain ⟨hn, honly⟩ := (h.threads.ok _).idle hdepth
  have hflows := h.threads.flows _ (live_cur (c := c))
  rw [← code_eq] at hflows
  subst hy
  refine h.regs ?_ rfl rfl rfl fun _ => rfl
  rw [honly.eq hn, hcode, List.append_assoc]
  apply Irq.flows
  refine Irq.tail_flows _ (fun hu' => ?_) ?_
  · rw [h.threads.kind]
    obtain ⟨q, hq⟩ := Option.isSome_iff_exists.mp (hu hu')
    rw [cur_proc hq]
    rfl
  · rwa [← honly.eq hn]

theorem step (h : Wf s a) (hs : s.step e = some t) : (∃ a', Wf t a') ∨ Ends s t := by
  cases (step_takes hs).2 with
  | exec hcode => exact h.exec hcode
  | interrupt hi hcode hy => exact .inl ⟨a, h.interrupt hi (fun hu => (Bool.and_eq_true_iff.mp hu).1) hcode hy⟩
  | @syscall c q hq hcode =>
    have hflows := h.threads.flows _ (live_cur (c := c))
    rw [← code_eq, hcode] at hflows
    refine .inl ⟨a, h.at_rest hflows.2 hflows.1 (syscall_flows ?_)⟩
    rw [h.threads.kind, cur_proc hq]
    rfl
  | @call c r rest hcode hr =>
    obtain ⟨⟨-, honly, hproc⟩, hrest⟩ := h.flows hcode
    have hn := h.parked_none hcode Instr.noConfusion
    have hrest : Flows rest (a (s.cur c)) := hrest.resolve_left id
    rw [honly.eq hn] at hrest
    refine .inl ⟨a, h.at_rest honly hn (r.flows hproc (fun i hi => ?_) ?_)⟩
    · simpa using hr i hi
    · exact .cons rfl Instr.noConfusion ⟨Flow.only_holds, hproc⟩ hrest
  | @kfree c rest hcode =>
    obtain ⟨⟨-, honly⟩, hrest⟩ := h.flows hcode
    have hn := h.parked_none hcode Instr.noConfusion
    have heq := Flow.Only.eq hn honly
    have hrest : Flows rest (a (s.cur c)) := hrest.resolve_left id
    refine .inl ⟨a, h.stay ?_⟩
    rw [heq] at hrest ⊢
    refine .critical ?_ ?_ (.cons rfl Instr.noConfusion Flow.only_holds hrest)
    · exact fun h => Lock.noConfusion (Finset.mem_singleton.mp h)
    · exact fun k hk => Finset.mem_singleton.mp hk ▸ trivial

/-- How the threads begin. -/
def start : Thread C → Flow
  | .sched _ => ⟨false, 0, ∅, ∅, none, ∅, ∅, none, none, none⟩
  | .proc _ => fresh

omit [DecidableEq C] in
theorem boot (init : Slot) : Wf (Sys.boot init : Sys C) start := by
  have hcur (c : C) : (Sys.boot init : Sys C).cur c = .sched c := rfl
  have hstate (q : Slot) : ((Sys.boot init : Sys C).proc q).state = .unused ∨ (q = init ∧
      (Sys.boot init : Sys C).proc q = ⟨.runnable, 1, none, none, false, release .ptable ++ [.busy, .trapret]⟩) := by
    by_cases hq : q = init
    · exact .inr ⟨hq, by simp [Sys.boot, hq]⟩
    · exact .inl (by simp [Sys.boot, hq])
  have hstart (k : Thread C) : (start k).owns = ∅ ∧ (start k).kids = ∅ ∧ (start k).parked = none ∧
      (start k).free = none ∧ (start k).owes = none ∧ (start k).bound = none := by
    cases k <;> exact ⟨rfl, rfl, rfl, rfl, rfl, rfl⟩
  have hno {i : Nat} {S : Finset Nat} (hS : S = ∅) : i ∉ S := hS ▸ Finset.notMem_empty i
  have hkid {k : Thread C} {r : Slot} (hr : r ∈ (start k).kids) : False := by
    rw [(hstart k).2.1] at hr
    exact Finset.notMem_empty r hr
  refine ⟨⟨fun k hk => ?_, fun k => ?_, fun k => ?_, fun c d q hc => ?_, fun k hk hoff => ?_, fun c q hc => ?_,
    fun q hq => ?_, fun k r hr => (hkid hr).elim, fun k _ r hr => (hkid hr).elim, fun q _ => ⟨rfl, rfl⟩⟩, ⟨fun c => rfl,
    fun c hc => absurd hc (lt_irrefl 0), ?_, fun l c => ?_⟩, ⟨fun k i hi => absurd hi (hno (hstart k).1),
    fun c i hi => ?_, fun q i hq => ?_, fun c i hi => ?_⟩, ⟨fun q hq => ?_, fun q r hq hr _ => ?_⟩, rfl⟩
  · cases k with
    | sched c => exact scheduler_flows (a := start (.sched c)) rfl
    | proc q =>
      rcases hstate q with hs | ⟨-, hp⟩
      · rcases hk with hl | hl | ⟨d, hd⟩
        · exact ProcState.noConfusion (hs.symm.trans hl)
        · exact ProcState.noConfusion (hs.symm.trans hl)
        · exact Option.noConfusion rfl (heq_of_eq hd)
      · rw [todo, hp]
        refine Flows.lastOne (a := fresh) ?_
        refine .cons rfl Instr.noConfusion ⟨Flow.only_holds, rfl⟩ ?_
        exact .cons rfl Instr.noConfusion Flow.only_holds ⟨rfl, Flow.only_holds⟩
  · obtain ⟨-, -, hp, hf, ho, hb⟩ := hstart k
    refine .of_none hp ?_ ?_ ?_ ?_
    · cases k <;> exact subset_rfl
    · simp [hf]
    · simp [ho]
    · simp [hb]
  · cases k <;> rfl
  · exact Option.noConfusion rfl (heq_of_eq hc)
  · cases k with
    | sched c => exact absurd (hcur c) (hoff c)
    | proc q => exact ⟨rfl, rfl, rfl, rfl, rfl, rfl, rfl⟩
  · exact Option.noConfusion rfl (heq_of_eq hc)
  · rcases hstate q with hs | ⟨-, hp⟩
    · exact ProcState.noConfusion (hs.symm.trans hq)
    · rw [hp] at hq
      exact ProcState.noConfusion hq
  · have hfree {c : C} {l : Lock} : l ∉ (start ((Sys.boot init).cur c)).held := Finset.notMem_empty l
    exact ⟨fun hl => absurd hl hfree, fun hl => absurd hl hfree, fun hl => absurd hl Bool.false_ne_true⟩
  · exact iff_of_false (Option.some_ne_none c).symm (Finset.notMem_empty l)
  · exact absurd hi.symm (Option.some_ne_none i)
  · rcases hstate q with hs | ⟨-, hp⟩
    · exact ProcState.noConfusion (hs.symm.trans hq)
    · rw [hp] at hq
      exact ProcState.noConfusion hq
  · exact absurd hi.symm (Option.some_ne_none i)
  · rcases hstate q with hs | ⟨-, hp⟩
    · exact absurd hs hq
    · rw [hp]
      exact ⟨Nat.one_pos, Nat.one_lt_two⟩
  · rcases hstate q with hs | ⟨rfl, -⟩
    · exact absurd hs hq
    · rcases hstate r with hs | ⟨rfl, -⟩
      · exact absurd hs hr
      · rfl

end Wf

/-- The state that the threads stand in, also when one of them has panicked. -/
theorem wf_of_reaches {init : Slot} (h : Run.Reaches step (Sys.boot init) s) :
    (∃ a, Wf { s with panic := none } a) ∧
      (s.panic = none ∨ s.panic = some .notHeld ∨ s.panic = some .initExiting) := by
  refine h.invariant (I := fun s => (∃ a, Wf { s with panic := none } a) ∧
    (s.panic = none ∨ s.panic = some .notHeld ∨ s.panic = some .initExiting)) (fun s e t hI hs => ?_)
    ⟨⟨_, Wf.boot init⟩, .inl rfl⟩
  obtain ⟨⟨a, hwf⟩, -⟩ := hI
  have hpanic := (step_takes hs).1
  have hsame (u : Sys C) (hu : u.panic = none) : { u with panic := none } = u := by rw [← hu]
  rw [hsame s hpanic] at hwf
  rcases hwf.step hs with ⟨a', hwf'⟩ | rfl | rfl
  · exact ⟨⟨a', by rwa [hsame t hwf'.panic]⟩, .inl hwf'.panic⟩
  · exact ⟨⟨a, by rwa [← hsame s hpanic] at hwf⟩, .inr (.inl rfl)⟩
  · exact ⟨⟨a, by rwa [← hsame s hpanic] at hwf⟩, .inr (.inr rfl)⟩

/-- The state after a run. -/
def after (init : Slot) (es : List (Event C)) (h : (Run.exec step (Sys.boot init) es).isSome = true) : Sys C :=
  (Run.exec step (Sys.boot init) es).get h

theorem reaches_after {init : Slot} {es : List (Event C)} {h : (Run.exec step (Sys.boot init) es).isSome = true} :
    Run.Reaches step (Sys.boot init) (after init es h) :=
  ⟨es, (Option.some_get h).symm⟩

end Sys

end Xv6.Locks
