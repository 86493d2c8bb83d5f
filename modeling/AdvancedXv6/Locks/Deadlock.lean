import AdvancedXv6.Locks.Sleeplock
import Mathlib.Logic.Relation

/-! Which CPUs can spin for good: the listing of the page counts is printed under `ptable.lock`, while the
readers of the console go to sleep under `cons.lock`. -/

namespace Xv6.Locks.Sys
open Function

variable {C : Type} [DecidableEq C] {s t : Sys C} {a : Thread C → Flow} {c d : C} {q r : Slot} {init : Slot} {l k : Lock}
  {rest code : Code} {x : Instr} {e : Event C}

/-- The CPU spins in `acquire`. -/
def Waits (s : Sys C) (c : C) (l : Lock) : Prop := (s.code c).head? = some (.xchg l) ∧ (s.lock l).locked = true

/-- Each of the CPUs spins for the lock that the other is to let go: `c` prints under `ptable.lock`, `d` sleeps
or wakes under `cons.lock`. -/
def Deadlock (s : Sys C) (c d : C) : Prop :=
  s.Waits c .cons ∧ Inside .ptable (s.code c) ∧ s.Waits d .ptable ∧ Inside .cons (s.code d)

instance : Decidable (s.Waits c l) := inferInstanceAs (Decidable (_ ∧ _))

instance : Decidable (s.Deadlock c d) := inferInstanceAs (Decidable (_ ∧ _))

namespace Wf

omit [DecidableEq C] in
theorem below (h : Wf s a) (hw : s.Waits c l) (hk : Inside k (s.code c)) : k.Below l := by
  obtain ⟨rest, hcode⟩ := List.head?_eq_some_iff.mp hw.1
  exact (h.flows hcode).1.2.2.2 k (h.inside.mp hk)

end Wf

/-- The pages are counted on one CPU while the first process reads the console on the other. -/
def listing : List (Event Bool) :=
  List.replicate 12 (.exec true) ++ [.exec false, .interrupt false (.console 0 0 (some 1))] ++
    List.replicate 12 (.exec false) ++ [.syscall true, .exec true, .call true (.consoleread 1)] ++
    List.replicate 6 (.exec true) ++ List.replicate 2 (.exec false)

theorem listing_isSome : (Run.exec step (boot ⟨0, by decide⟩) listing).isSome = true := by decide

theorem goto_code_ne (hq : (s.cpu c).proc ≠ some q) : ((s.goto c code).proc q).code = (s.proc q).code :=
  (goes_goto s c code).others (.proc q) fun h => hq (cur_eq_proc.mp h.symm)

omit [DecidableEq C] in
theorem setProc_code {y : Proc} (hy : r = q → y.code = (s.proc q).code) : ((s.setProc r y).proc q).code = (s.proc q).code := by
  by_cases hr : r = q
  · subst hr
    simp [setProc, hy rfl]
  · simp [setProc, Ne.symm hr]

/-- A step changes the code of the thread that makes it, and of a child that it starts. -/
theorem instr_code (hq : (s.cpu c).proc ≠ some q) (hx : x ≠ .ready q) :
    ((s.instr c rest x).proc q).code = (s.proc q).code := by
  have hgoto {code : Code} : ((s.goto c code).proc q).code = (s.proc q).code := goto_code_ne hq
  have hset {u : Sys C} {r : Slot} {y : Proc} (hu : (u.proc q).code = (s.proc q).code)
      (hy : r = q → y.code = (s.proc q).code) : ((u.setProc r y).proc q).code = (s.proc q).code :=
    (setProc_code fun hr => (hy hr).trans hu.symm).trans hu
  have hwith (f : Slot → Sys C) (hf : ∀ r, r ≠ q → ((f r).proc q).code = (s.proc q).code) :
      ((s.withProc c f).proc q).code = (s.proc q).code := by
    unfold withProc
    split
    · rename_i r hr
      exact hf r fun h => hq (h ▸ hr)
    · rfl
  cases x with
  | leave => exact hwith _ fun r _ => (Wf.leave_proc (s.goto c rest) r q).1.trans hgoto
  | sched =>
    refine hwith _ fun r hr => ?_
    unfold Sys.sched
    dsimp only
    repeat' split
    all_goals first | rfl | exact hset rfl fun h => absurd h hr
  | alloc ok =>
    refine hwith _ fun r _ => ?_
    unfold Sys.alloc
    split
    · exact hgoto
    · exact hset hgoto fun h => h ▸ rfl
  | scan =>
    refine hwith _ fun r _ => ?_
    unfold Sys.scan
    split
    · exact hset hgoto fun h => h ▸ rfl
    · split <;> exact hgoto
  | stand | doze ch | tidy =>
    refine hwith _ fun r _ => hset hgoto fun h => ?_
    subst h
    exact hgoto
  | checkInit | readHeld i =>
    refine hwith _ fun r _ => ?_
    split <;> first | rfl | exact hgoto
  | take i | exitIfKilled => exact hwith _ fun r _ => hgoto
  | yieldIfRunning =>
    unfold instr
    dsimp only
    split <;> exact hgoto
  | wakeup1 ch => exact (rouse_same (s.goto c rest) (fun p => p.chan = some ch) q).1.trans hgoto
  | killLoop pid =>
    dsimp only [instr]
    split
    · refine hset hgoto fun h => ?_
      subst h
      exact hgoto
    · exact hgoto
  | ready r => exact hset hgoto fun h => absurd (h ▸ rfl) hx
  | abandon r =>
    refine hset hgoto fun h => ?_
    subst h
    exact hgoto
  | tryRun r =>
    dsimp only [instr]
    split
    · refine hset hgoto fun h => ?_
      subst h
      exact hgoto
    · exact hgoto
  | _ =>
    dsimp only [instr]
    repeat' split
    all_goals first | rfl | exact hgoto

theorem instr_cpu (hd : d ≠ c) : (s.instr c rest x).cpu d = s.cpu d := by
  have hgoto {code : Code} : (s.goto c code).cpu d = s.cpu d := goto_cpu_ne s c code hd
  have hset {u : Sys C} {y : Cpu} (hu : u.cpu d = s.cpu d) : (u.setCpu c y).cpu d = s.cpu d :=
    (setCpu_cpu_ne y hd).trans hu
  have hwith (f : Slot → Sys C) (hf : ∀ r, (f r).cpu d = s.cpu d) : (s.withProc c f).cpu d = s.cpu d := by
    unfold withProc
    split
    · exact hf _
    · rfl
  cases x with
  | leave => exact hwith _ fun r => (congrFun (Wf.leave_rest (s.goto c rest) r).1 d).trans hgoto
  | sched =>
    refine hwith _ fun r => ?_
    unfold Sys.sched
    dsimp only
    repeat' split
    all_goals first | rfl | exact hset rfl
  | alloc ok =>
    refine hwith _ fun r => ?_
    unfold Sys.alloc
    split <;> exact hgoto
  | scan =>
    refine hwith _ fun r => ?_
    unfold Sys.scan
    repeat' split
    all_goals exact hgoto
  | checkInit | readHeld i =>
    refine hwith _ fun r => ?_
    split <;> first | rfl | exact hgoto
  | stand | doze ch | tidy | take i | exitIfKilled => exact hwith _ fun r => hgoto
  | yieldIfRunning =>
    unfold instr
    dsimp only
    split <;> exact hgoto
  | _ =>
    dsimp only [instr]
    repeat' split
    all_goals first | rfl | exact hgoto | exact hset hgoto

/-- A step of one CPU leaves what the others have still to do. -/
theorem Wf.code_others (h : Wf s a) (hs : s.step e = some t) (hd : d ≠ e.cpu) : t.code d = s.code d := by
  have hgoes {u : Sys C} (hcpu : u.cpu d = s.cpu d)
      (hcode : ∀ q, (s.cpu d).proc = some q → (u.proc q).code = (s.proc q).code) : u.code d = s.code d := by
    unfold Sys.code
    rw [hcpu]
    cases hq : (s.cpu d).proc with
    | none => rfl
    | some q => exact hcode q hq
  have hoff {q : Slot} {c : C} (hc : d ≠ c) (hq : (s.cpu d).proc = some q) : (s.cpu c).proc ≠ some q := fun hcq =>
    hc (h.threads.one d c q hq hcq)
  have hgoto {c : C} {code : Code} (hc : d ≠ c) : (s.goto c code).code d = s.code d :=
    hgoes (goto_cpu_ne s c code hc) fun q hq => goto_code_ne (hoff hc hq)
  cases (step_takes hs).2 with
  | @exec c x rest hcode =>
    refine hgoes (instr_cpu hd) fun q hq => instr_code (hoff hd hq) ?_
    -- a child that is started is on no CPU
    rintro rfl
    exact h.not_live_of (.inr (h.threads.kid _ q (h.flows hcode).1.2.1)) (.inr (.inr ⟨d, hq⟩))
  | @interrupt c =>
    exact hgoes ((setCpu_cpu_ne _ hd).trans (goto_cpu_ne s c _ hd)) fun q hq => goto_code_ne (hoff hd hq)
  | _ => exact hgoto hd

theorem step_spins (hw : s.Waits c l) (hp : s.panic = none) : s.step (.exec c) = some s := by
  obtain ⟨rest, hcode⟩ := List.head?_eq_some_iff.mp hw.1
  simp [step, hp, hcode, instr, hw.2]

/-- A CPU that spins with a lock held takes no interrupt, and does nothing. -/
theorem Wf.spins_on (h : Wf s a) (hw : s.Waits c l) (hk : Inside k (s.code c)) (hs : s.step e = some t)
    (hc : e.cpu = c) : t = s := by
  obtain ⟨rest, hcode⟩ := List.head?_eq_some_iff.mp hw.1
  have hiflag := h.spins.masked_of_mem (h.inside.mp hk)
  subst hc
  cases (step_takes hs).2 with
  | exec => exact Option.some.inj (hs.symm.trans (step_spins hw h.panic))
  | interrupt hi => exact absurd (hi.symm.trans hiflag) (by decide)
  | syscall _ hcode' => cases hcode.symm.trans hcode'
  | call hcode' => cases hcode.symm.trans hcode'
  | kfree hcode' => cases hcode.symm.trans hcode'

/-- Once two CPUs spin for each other they do so for good. -/
theorem deadlock_lasts (h : Run.Reaches step (boot init) s) (hdead : s.Deadlock c d) {es : List (Event C)}
    (hes : Run.exec step s es = some t) : t.Deadlock c d ∧ t.code c = s.code c ∧ t.code d = s.code d := by
  refine (Run.invariant (I := fun u => Run.Reaches step (boot init) u ∧ u.Deadlock c d ∧ u.code c = s.code c ∧
    u.code d = s.code d) (fun u e v hI hs => ?_) ⟨h, hdead, rfl, rfl⟩ hes).2
  obtain ⟨hu, ⟨hprints, hlists, hsleeps, hreads⟩, hc, hd⟩ := hI
  have hpanic := (step_takes hs).1
  obtain ⟨⟨a, hwf⟩, -⟩ := wf_of_reaches hu
  have hsame : { u with panic := none } = u := by rw [← hpanic]
  rw [hsame] at hwf
  have hv := hu.next hs
  have hlocked {l : Lock} {c : C} (hin : Inside l (v.code c)) : (v.lock l).locked = true := by
    obtain ⟨⟨b, hwf'⟩, -⟩ := wf_of_reaches hv
    exact hwf'.locked_iff.mpr ⟨c, hin⟩
  by_cases hec : e.cpu = c
  · rw [hwf.spins_on hprints hlists hs hec]
    exact ⟨hu, ⟨hprints, hlists, hsleeps, hreads⟩, hc, hd⟩
  by_cases hed : e.cpu = d
  · rw [hwf.spins_on hsleeps hreads hs hed]
    exact ⟨hu, ⟨hprints, hlists, hsleeps, hreads⟩, hc, hd⟩
  have hc' := hwf.code_others hs (Ne.symm hec)
  have hd' := hwf.code_others hs (Ne.symm hed)
  refine ⟨hv, ⟨⟨?_, ?_⟩, ?_, ⟨?_, ?_⟩, ?_⟩, hc'.trans hc, hd'.trans hd⟩
  · rw [hc']
    exact hprints.1
  · refine hlocked (c := d) ?_
    rwa [hd']
  · rwa [hc']
  · rw [hd']
    exact hsleeps.1
  · refine hlocked (c := c) ?_
    rwa [hc']
  · rwa [hd']

theorem deadlock_lasts_listing : ∃ s t : Sys Bool, Run.Reaches step (boot ⟨0, by decide⟩) s ∧ s.Deadlock false true ∧
    Run.exec step s [.exec false, .exec true] = some t ∧
    t.Deadlock false true ∧ t.code false = s.code false ∧ t.code true = s.code true := by
  have hdead : (after _ listing listing_isSome).Deadlock false true := by decide
  have hpanic : (after _ listing listing_isSome).panic = none := Option.isNone_iff_eq_none.mp (by decide)
  have hspin : Run.exec step (after _ listing listing_isSome) [.exec false, .exec true] =
      some (after _ listing listing_isSome) := by
    rw [Run.exec_cons (step_spins hdead.1 hpanic), Run.exec_cons (step_spins hdead.2.2.1 hpanic)]
    rfl
  exact ⟨_, _, reaches_after, hdead, hspin, deadlock_lasts reaches_after hdead hspin⟩

end Xv6.Locks.Sys
