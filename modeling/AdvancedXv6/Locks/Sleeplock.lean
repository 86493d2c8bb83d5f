import AdvancedXv6.Locks.Exclusion

/-! What the sleep locks are for: one process has each of them until it lets it go, and who waits for it
is woken then. -/

namespace Xv6.Locks
open Function

/-- A thread with this to do lets the sleep lock go, and does not take or check it before. -/
def Lets (i : Nat) : Code → Prop
  | [] => False
  | .drop j :: code => j = i ∨ Lets i code
  | .take j :: code | .readHeld j :: code => j ≠ i ∧ Lets i code
  | .leave :: _ | .zombieExit :: _ | .notHeld :: _ => False
  | _ :: code => Lets i code

/-- A thread with this to do wakes who sleeps for the sleep lock, and lets its spinlock go after that. -/
def Pays (i : Nat) : Code → Prop
  | [] => False
  | .wakeup1 ch :: code => ch = .sleeplock i ∨ Pays i code
  | .clear k :: code => k ≠ .lk i ∧ Pays i code
  | .sched :: _ | .alloc _ :: _ | .scan :: _ | .notHeld :: _ => False
  | _ :: code => Pays i code

section
variable {a : Flow} {i : Nat} {code : Code}

theorem Flows.lets (h : Flows code a) (hz : a.parked ≠ some .zombie) (hl : Lets i code) : i ∈ a.owns := by
  induction code generalizing a with
  | nil => exact absurd hl id
  | cons x code ih =>
    obtain ⟨⟨-, hguard⟩, hrest⟩ := h
    have hrest (hlast : ¬x.last a) (hz : (x.next a).parked ≠ some .zombie) (hl : Lets i code) : i ∈ (x.next a).owns :=
      ih (hrest.resolve_left hlast) hz hl
    cases x with
    | drop j =>
      rcases hl with rfl | hl
      · exact hguard.2.1
      · exact Finset.mem_of_mem_erase (hrest id hz hl)
    | take j | readHeld j => exact (Finset.mem_insert.mp (hrest id hz hl.2)).resolve_left hl.1.symm
    | leave | zombieExit | notHeld => exact absurd hl id
    | sched => exact hrest hz (Option.some_ne_none _).symm hl
    | stand | doze ch => exact hrest id (fun h => Parked.noConfusion (Option.some.inj h)) hl
    | alloc ok | scan => exact hrest id (Option.some_ne_none _).symm hl
    | _ => exact hrest id hz hl

/-- What is owed is paid before the spinlock is let go. -/
theorem Flows.pays (h : Flows code a) (ok : a.Ok) (ho : a.owes = some i) : Pays i code := by
  have hnone {b : Option Nat} {S : Finset Lock} (h : a.Ends S b) : False :=
    Option.some_ne_none i (ho.symm.trans h.2.2.2.2.1)
  induction code generalizing a with
  | nil => exact (hnone h.2).elim
  | cons x code ih =>
    obtain ⟨hallowed, hrest⟩ := h
    have hnext := ok.next hallowed
    obtain ⟨hpark, hguard⟩ := hallowed
    have hrest (hlast : ¬x.last a) (ho : (x.next a).owes = some i) : Pays i code :=
      ih (hrest.resolve_left hlast) hnext ho fun h => Option.some_ne_none i (ho.symm.trans h.2.2.2.2.1)
    cases x with
    | wakeup1 ch =>
      by_cases hch : ch = .sleeplock i
      · exact .inl hch
      · refine .inr (hrest id ?_)
        have hne : some i ≠ ch.lock? := by
          intro heq
          cases ch <;> simp_all [Chan.lock?]
        rw [Instr.next, ho]
        exact if_neg hne
    | clear k => exact ⟨fun hk => (hguard.2.2.1 i hk).2.1 ho, hrest id ho⟩
    | drop j => exact absurd (ho.symm.trans hguard.2.2.1) (Option.some_ne_none i)
    | sched => exact (hnone (ok.parked (hpark.mpr rfl)).1).elim
    | alloc ok | scan => exact (hnone hguard.1).elim
    | notHeld => exact (hnone hguard).elim
    | zombieExit => exact absurd hguard id
    | _ => exact hrest id ho

end

namespace Sys
variable {C : Type} [DecidableEq C] {s t : Sys C} {a : Thread C → Flow} {c : C} {q r : Slot} {i : Nat} {init : Slot}
  {rest : Code} {x : Instr} {e : Event C}

/-- The process has the sleep lock still to let go. -/
def Has (s : Sys C) (q : Slot) (i : Nat) : Prop :=
  ((s.proc q).state = .sleeping ∨ (s.proc q).state = .runnable ∨ (s.proc q).state = .running) ∧ Lets i (s.proc q).code

omit [DecidableEq C] in
theorem Wf.owns_of_has (h : Wf s a) (hq : s.Has q i) : i ∈ (a (.proc q)).owns := by
  obtain ⟨hstate, hlets⟩ := hq
  have hlive : s.Live (.proc q) := by
    rcases hstate with hs | hs | hs
    · exact .inl hs
    · exact .inr (.inl hs)
    · exact .inr (.inr (h.threads.running q hs))
  refine (h.threads.flows _ hlive).lets (fun hz => ?_) hlets
  by_cases hoff : ∀ c, s.cur c ≠ .proc q
  · exact Option.some_ne_none _ (hz.symm.trans (h.threads.off _ hlive hoff).1)
  · obtain ⟨c, hc⟩ := not_forall_not.mp hoff
    have hshows := h.threads.shows c q (cur_eq_proc.mp hc)
    rw [hz] at hshows
    rcases hstate with hs | hs | hs <;> exact ProcState.noConfusion (hs.symm.trans hshows)

theorem instr_sleep (ht : ∀ j, x ≠ .take j) (hd : ∀ j, x ≠ .drop j) : (s.instr c rest x).sleep = s.sleep := by
  have hwith (f : Slot → Sys C) (hf : ∀ q, (f q).sleep = s.sleep) : (s.withProc c f).sleep = s.sleep := by
    unfold withProc
    split
    · exact hf _
    · rfl
  cases x with
  | take j => exact absurd rfl (ht j)
  | drop j => exact absurd rfl (hd j)
  | leave => exact hwith _ fun q => (Wf.leave_rest (s.goto c rest) q).2.2.1.trans (goto_sleep ..)
  | sched =>
    refine hwith _ fun q => ?_
    unfold Sys.sched
    dsimp only
    repeat' split
    all_goals rfl
  | alloc ok =>
    refine hwith _ fun q => ?_
    unfold Sys.alloc
    split <;> exact goto_sleep ..
  | scan =>
    refine hwith _ fun q => ?_
    unfold Sys.scan
    repeat' split
    all_goals exact goto_sleep ..
  | stand | doze ch | tidy => exact hwith _ fun q => goto_sleep ..
  | checkInit | readHeld i =>
    refine hwith _ fun q => ?_
    split <;> first | rfl | exact goto_sleep ..
  | exitIfKilled => exact hwith _ fun q => goto_sleep ..
  | yieldIfRunning =>
    unfold instr
    dsimp only
    split <;> exact goto_sleep ..
  | _ =>
    dsimp only [instr]
    repeat' split
    all_goals first | rfl | exact goto_sleep ..

/-- A sleep lock that is taken stays as it is, but for the process whose pid it has. -/
theorem Wf.sleep_step (h : Wf s a) (hs : s.step e = some t) (hi : (s.sleep i).locked = true) : t.sleep i = s.sleep i ∨
    (t.sleep i = ⟨false, 0⟩ ∧ ∃ c q, e = .exec c ∧ (s.cpu c).proc = some q ∧ (s.sleep i).pid = (s.proc q).pid ∧
      (s.code c).head? = some (.drop i)) := by
  cases (step_takes hs).2 with
  | @exec c x rest hcode =>
    by_cases hx : (∀ j, x ≠ .take j) ∧ ∀ j, x ≠ .drop j
    · rw [instr_sleep hx.1 hx.2]
      exact .inl rfl
    have hflows := (h.flows hcode).1.2
    cases x with
    | take j =>
      obtain ⟨-, hfree, hproc⟩ := hflows
      obtain ⟨q, hq⟩ := h.proc hproc
      have hij : i ≠ j := by
        rintro rfl
        exact absurd (hi.symm.trans (h.sleeps.free c i hfree)) (by decide)
      simp [instr, withProc, hq, setSleep, hij]
    | drop j =>
      by_cases hij : i = j
      · subst hij
        obtain ⟨q, hq, hsleep⟩ := h.sleeps.owns _ i hflows.2.1
        refine .inr ⟨by simp [instr, setSleep], c, q, rfl, cur_eq_proc.mp hq, by rw [hsleep], by rw [hcode]; rfl⟩
      · simp [instr, setSleep, hij]
    | _ => exact absurd ⟨fun j => Instr.noConfusion, fun j => Instr.noConfusion⟩ hx
  | _ => exact .inl (congrFun (goto_sleep ..) i)

/-- A process that has a sleep lock still to let go is the one whose pid the lock has, and no other process
has it; the lock stays as it is until that process lets it go. -/
theorem sleeplock_held (h : Run.Reaches step (boot init) s) (i : Nat) :
    (∀ q, s.Has q i → s.sleep i = ⟨true, (s.proc q).pid⟩) ∧ (∀ q r, s.Has q i → s.Has r i → q = r) ∧
      ∀ e t, s.step e = some t → (s.sleep i).locked = true → t.sleep i = s.sleep i ∨
        (t.sleep i = ⟨false, 0⟩ ∧ ∃ c q, e = .exec c ∧ (s.cpu c).proc = some q ∧ (s.sleep i).pid = (s.proc q).pid ∧
          (s.code c).head? = some (.drop i)) := by
  obtain ⟨⟨a, hwf⟩, -⟩ := wf_of_reaches h
  refine ⟨fun q hq => ?_, fun q r hq hr => ?_, fun e t hs hi => ?_⟩
  · obtain ⟨r, hr, hsleep⟩ := hwf.sleeps.owns _ i (hwf.owns_of_has hq)
    rw [Thread.proc.inj hr]
    exact hsleep
  · exact Thread.proc.inj (hwf.owns_inj (hwf.owns_of_has hq) (hwf.owns_of_has hr))
  · have hpanic := (step_takes hs).1
    have hsame : { s with panic := none } = s := by rw [← hpanic]
    rw [hsame] at hwf
    exact hwf.sleep_step hs hi

/-- The first process starts a child and frees the inode of entry 5; the child runs on the other CPU and
sleeps for that inode. -/
def contend : List (Event Bool) :=
  List.replicate 12 (.exec true) ++ [.syscall true, .exec true, .call true (.fork true)] ++ List.replicate 19 (.exec true) ++
    .call true (.iput 5 true) :: List.replicate 18 (.exec true) ++ List.replicate 12 (.exec false) ++
    [.syscall false, .exec false, .call false (.ilock 5)] ++ List.replicate 14 (.exec false)

theorem contend_isSome : (Run.exec step (boot ⟨0, by decide⟩) contend).isSome = true := by decide

theorem sleeplock_held_contend :
    (∀ q, (after _ contend contend_isSome).Has q 5 →
      (after _ contend contend_isSome).sleep 5 = ⟨true, ((after _ contend contend_isSome).proc q).pid⟩) ∧
    (∀ q r, (after _ contend contend_isSome).Has q 5 → (after _ contend contend_isSome).Has r 5 → q = r) ∧
    ∀ e t, (after _ contend contend_isSome).step e = some t → ((after _ contend contend_isSome).sleep 5).locked = true →
      t.sleep 5 = (after _ contend contend_isSome).sleep 5 ∨
        (t.sleep 5 = ⟨false, 0⟩ ∧ ∃ c q, e = .exec c ∧ ((after _ contend contend_isSome).cpu c).proc = some q ∧
          ((after _ contend contend_isSome).sleep 5).pid = ((after _ contend contend_isSome).proc q).pid ∧
          ((after _ contend contend_isSome).code c).head? = some (.drop 5)) :=
  sleeplock_held reaches_after 5

/-- A process sleeps for a sleep lock only while it is taken, or while a CPU that has let it go holds its
spinlock and is still to wake the process. -/
theorem no_lost_wakeup (h : Run.Reaches step (boot init) s) (hq : (s.proc q).state = .sleeping)
    (hch : (s.proc q).chan = some (.sleeplock i)) : (s.sleep i).locked = true ∨
    ∃ c, Inside (.lk i) (s.code c) ∧ Pays i (s.code c) := by
  obtain ⟨⟨a, hwf⟩, -⟩ := wf_of_reaches h
  refine (hwf.sleeps.sleeper q i hq hch).imp id fun ho => ?_
  obtain ⟨c, ho⟩ := ho
  have hflows := hwf.threads.flows _ (live_cur (c := c))
  rw [← code_eq] at hflows
  exact ⟨c, hwf.inside.mpr ((hwf.threads.ok _).owes i ho), hflows.pays (hwf.threads.ok _) ho⟩

theorem no_lost_wakeup_contend : ((after _ contend contend_isSome).sleep 5).locked = true ∨
    ∃ c, Inside (.lk 5) ((after _ contend contend_isSome).code c) ∧ Pays 5 ((after _ contend contend_isSome).code c) :=
  no_lost_wakeup (q := ⟨1, by decide⟩) reaches_after (by decide) (by decide)

end Sys

end Xv6.Locks
