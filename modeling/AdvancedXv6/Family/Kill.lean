import AdvancedXv6.Family.Exit

/-! `kill` looks at the pids of all slots, also of those that are not in use, and `allocproc` leaves the
`killed` of the slot that it takes as it is. -/

namespace Xv6.Family
open Function

namespace Table
variable {k t : Table} {p q np : Slot} {e : Event} {n : Nat} {pid : Int} {es : List Event} {f : Proc → Proc}

/-- `kill` with the `int` that it is called with. -/
def killInt (k : Table) (p : Slot) (pid : Int) : Table :=
  match k.find fun q => (q.pid : Int) = pid with
  | none => k.ret p (-1)
  | some q =>
    { (k.modify q fun r =>
        { r with killed := true, state := if r.state = .sleeping then .runnable else r.state }).ret p 0 with
      kills := k.kills ++ [pid.toNat] }

theorem killInt_natCast (k : Table) (p : Slot) (n : Nat) : k.killInt p n = k.kill p n := by
  have hfind : (k.find fun q => (q.pid : Int) = (n : Int)) = k.find fun q => q.pid = n := by
    simp only [Int.natCast_inj]
  unfold killInt kill
  rw [hfind]
  rfl

/-- Some slot that is not `UNUSED` has the pid. -/
def InUse (k : Table) (pid : Int) : Prop := ∃ q, (k.proc q).state ≠ .unused ∧ ((k.proc q).pid : Int) = pid

/-- The slot that `kill` finds, if any, is neither `UNUSED` nor still being made. -/
def Aimed (k : Table) (pid : Int) : Prop :=
  ∀ q, k.find (fun q => (q.pid : Int) = pid) = some q → (k.proc q).state ≠ .unused ∧ (k.proc q).state ≠ .embryo

def AimedStep (k : Table) : Event → Prop
  | .kill _ pid => k.Aimed pid
  | _ => True

/-- The call of `p` has returned -1, and no slot has changed but for that value. -/
def Refused (k t : Table) (p : Slot) : Prop := t = k.ret p (-1)

/-- A slot that nobody uses, or whose process is still being made, is not marked. -/
def Clean (k : Table) : Prop :=
  ∀ q, (k.proc q).state = .unused ∨ (k.proc q).state = .embryo → (k.proc q).killed = false

/-- Where nobody has the pid, `kill` refuses exactly if no slot has it. -/
theorem killInt_refused_iff (k : Table) (p : Slot) (pid : Int) :
    (¬k.InUse pid → k.Refused (k.killInt p pid) p) ↔ (¬k.InUse pid → k.Aimed pid) := by
  refine forall_congr' fun hno => ?_
  unfold Refused killInt Aimed
  cases hfind : k.find fun q => (q.pid : Int) = pid with
  | none =>
    refine ⟨fun _ q hq => ?_, fun _ => rfl⟩
    cases hq
  | some q =>
    have hpid : ((k.proc q).pid : Int) = pid := by simpa using find_some hfind
    have hun : (k.proc q).state = .unused := by
      by_contra hne
      exact hno ⟨q, hne, hpid⟩
    refine ⟨fun heq => ?_, fun haim => absurd hun (haim q rfl).1⟩
    have hret := congrArg (fun t : Table => (t.proc p).eax) heq
    simp only [ret, modify_self] at hret
    exact absurd hret (by decide)

/-! ### What a step does to the marks -/

theorem Clean.modify (h : k.Clean)
    (hf : (f (k.proc p)).state = .unused ∨ (f (k.proc p)).state = .embryo → (f (k.proc p)).killed = false) :
    (k.modify p f).Clean := by
  intro q hq
  by_cases hqp : q = p
  · subst hqp
    rw [modify_self] at hq ⊢
    exact hf hq
  · rw [modify_of_ne hqp] at hq ⊢
    exact h q hq

/-- A step that touches neither the state nor the mark. -/
theorem Clean.same (h : k.Clean) (hstate : (f (k.proc p)).state = (k.proc p).state)
    (hkilled : (f (k.proc p)).killed = (k.proc p).killed) : (k.modify p f).Clean :=
  h.modify fun hs => by
    rw [hstate] at hs
    rw [hkilled]
    exact h p hs

theorem Clean.ret (h : k.Clean) (p : Slot) (r : Int) : (k.ret p r).Clean := h.same rfl rfl

theorem Clean.rouse (h : k.Clean) (chan : Option Chan) : (k.wakeup1 chan).Clean := by
  intro q hq
  have hq : (Table.rouse chan (k.proc q)).state = .unused ∨ (Table.rouse chan (k.proc q)).state = .embryo := hq
  show (Table.rouse chan (k.proc q)).killed = false
  unfold Table.rouse at hq ⊢
  split at hq
  · simp at hq
  · rename_i hno
    rw [if_neg hno]
    exact h q hq

theorem Clean.exit_test (h : k.Clean) (p : Slot) : (k.exit p).Clean := by
  unfold Table.exit
  split
  · exact h
  · exact h.same rfl rfl

theorem Clean.allocproc (h : k.Clean) (p : Slot) : (k.allocproc p).Clean := by
  unfold Table.allocproc
  cases hfind : k.find fun q => q.state = .unused with
  | none => exact h.ret p (-1)
  | some np =>
    have hun : (k.proc np).state = .unused := by simpa using find_some hfind
    have hnext : ({ k with nextpid := k.nextpid + 1 } : Table).Clean := h
    exact Clean.same (hnext.modify fun _ => h np (.inl hun)) rfl rfl

theorem Clean.forkFail (h : k.Clean) (p : Slot) (hnp : (k.proc np).state = .embryo) : (k.forkFail p np).Clean := by
  refine (h.ret p (-1)).modify fun _ => h.ret p (-1) np (.inr ?_)
  rw [← hnp]
  exact (soft_ret k p (-1)).proc np |>.eq_of_not_live (s := .embryo) id |>.mpr hnp |>.trans hnp.symm

theorem Clean.passOn (h : k.Clean) (p q : Slot) : (passOn p k q).Clean := by
  unfold Table.passOn
  split
  · dsimp only
    split
    · exact (h.same rfl rfl).rouse _
    · exact h.same rfl rfl
  · exact h

theorem Clean.leave (h : k.Clean) (p : Slot) : (k.leave p).Clean := by
  have hfold (qs : List Slot) {u : Table} (hu : u.Clean) : (qs.foldl (Table.passOn p) u).Clean := by
    induction qs generalizing u with
    | nil => exact hu
    | cons q qs ih => exact ih (hu.passOn p q)
  have hall := hfold (List.finRange nProc) (h.rouse ((k.proc p).parent.map .proc))
  unfold Table.leave
  generalize (List.finRange nProc).foldl (Table.passOn p) (k.wakeup1 ((k.proc p).parent.map .proc)) = u at *
  exact Clean.modify (f := fun q => { q with state := .zombie }) hall (by simp)

theorem Clean.wait (h : k.Clean) (p : Slot) : (k.wait p).Clean := by
  unfold Table.wait
  split
  · exact Clean.ret (h.modify fun _ => rfl) p _
  · split
    · exact h.ret p (-1)
    · exact h.modify (by simp)

theorem Clean.kill (h : k.Clean) (p : Slot) (haim : k.Aimed n) : (k.kill p n).Clean := by
  unfold Table.kill
  cases hfind : k.find fun q => q.pid = n with
  | none => exact h.ret p (-1)
  | some q =>
    have hq : (k.proc q).state ≠ .unused ∧ (k.proc q).state ≠ .embryo := by
      refine haim q ?_
      simp only [Int.natCast_inj]
      exact hfind
    refine Clean.ret (h.modify fun hs => ?_) p 0
    dsimp only at hs
    split at hs
    · simp at hs
    · exact absurd hs (not_or.mpr hq)

theorem Clean.act (h : k.Clean) (hw : k.Wf) (hp : (k.proc p).state = .running) (haim : k.AimedStep e)
    (ht : k.act p e = some t) : t.Clean := by
  have hlive := live_of_running hp
  have hrun {g : Proc → Proc} (hg : (g (k.proc p)).state = .running) : (k.modify p g).Clean :=
    h.modify fun hs => by simp [hg] at hs
  unfold Table.act at ht
  split at ht <;> cases ht
  · exact h.modify (by simp)
  · split
    · exact h.exit_test p
    · exact h.same rfl rfl
  · split
    · exact h.exit_test p
    · exact h.same rfl rfl
  · split
    · exact h.exit_test p
    · exact h.same rfl rfl
  · exact (hrun hp).exit_test p
  · exact hrun hp
  · exact h.allocproc p
  · rename_i hact
    exact h.forkFail p (hw.fork p _ false hlive hact).1
  · exact Clean.same (h.same rfl rfl) rfl rfl
  · exact Clean.modify (f := fun q => { q with state := .runnable, activity := .user }) (h.ret p _) (by simp)
  · exact h.exit_test p
  · exact h.leave p
  · exact h.wait p
  · exact h.kill p haim
  all_goals exact h.modify (by simp)

theorem Clean.step (h : k.Clean) (hw : k.Wf) (haim : k.AimedStep e) (ht : k.step e = some t) : t.Clean := by
  unfold Table.step at ht
  split at ht
  · cases ht
  · split at ht
    · split at ht
      · obtain rfl := Option.some.inj ht
        have hrun := Clean.modify (p := ‹Slot›) (f := fun q => { q with state := .running, chan := none }) h (by simp)
        unfold Table.schedule
        split
        · exact hrun.wait _
        · exact hrun
      · cases ht
    · obtain rfl := Option.some.inj ht
      exact h.rouse _
    · obtain ⟨p, -, ht⟩ := Option.bind_eq_some_iff.mp ht
      split at ht
      · rename_i hp
        exact h.act hw hp haim ht
      · cases ht

theorem clean_boot : boot.Clean := by
  intro q _
  unfold boot
  dsimp only
  split <;> rfl

/-- A process comes out of `fork` with the mark that the slot had. -/
theorem forkFinish_killed (k : Table) (p np : Slot) : ((k.forkFinish p np).proc np).killed = (k.proc np).killed := by
  have hret : ((k.ret p (k.proc np).pid).proc np).killed = (k.proc np).killed := by
    unfold ret
    by_cases h : np = p
    · subst h
      rw [modify_self]
    · rw [modify_of_ne h]
  rw [forkFinish_proc, modify_self]
  exact hret

/-- If each `kill` of a run finds a slot in use, or none, then `kill` refuses every pid that nobody has, and
no process comes out of `fork` marked. -/
theorem kill_spares (hes : Run.exec step boot es = some k)
    (haim : Run.Always step (fun s e _ => s.AimedStep e) boot es) :
    (∀ p (pid : Int), (¬k.InUse pid → k.Refused (k.killInt p pid) p) ↔ (¬k.InUse pid → k.Aimed pid)) ∧
      ∀ p np t, (k.proc p).activity = .fork np true → k.step (.forkFinish p) = some t → (t.proc np).killed = false := by
  refine ⟨fun p pid => killInt_refused_iff k p pid, fun p np t hact ht => ?_⟩
  obtain ⟨hw, hclean⟩ : k.Wf ∧ k.Clean := haim.invariant (I := fun s => s.Wf ∧ s.Clean)
    (fun s e u hs ha hu => ⟨hs.1.step hu, hs.2.step hs.1 ha hu⟩) ⟨wf_boot, clean_boot⟩ hes
  have hcall : (k.proc p).state = .running ∧ k.forkFinish p np = t := by
    unfold Table.step at ht
    split at ht
    · cases ht
    · change (if (k.proc p).state = .running then k.act p (.forkFinish p) else none) = some t at ht
      split at ht
      · rename_i hp
        unfold Table.act at ht
        rw [hact] at ht
        exact ⟨hp, Option.some.inj ht⟩
      · cases ht
  obtain ⟨hp, rfl⟩ := hcall
  rw [forkFinish_killed]
  exact hclean np (.inr (hw.fork p np true (live_of_running hp) hact).1)

/-- Init calls `kill(0)`, and then `fork`. -/
def strayKill : List Event :=
  let init := boot.initproc
  [.schedule init, .trap init, .kill init 0, .back init, .trap init, .fork init, .forkCopy init, .forkFinish init]

/-- Nobody has the pid 0, and yet `kill(0)` succeeds; the child of the next `fork` is killed at once. -/
theorem stray_kill : ∃ s t k, Run.exec step boot (strayKill.take 2) = some s ∧
    (∀ q, (s.proc q).state ≠ .unused → (s.proc q).pid ≠ 0) ∧ s.step (.kill s.initproc 0) = some t ∧
    (t.proc s.initproc).eax = 0 ∧ Run.exec step boot strayKill = some k ∧
    ∃ q, (k.proc q).state = .runnable ∧ (k.proc q).pid = 2 ∧ (k.proc q).killed = true := by
  have hs : ((Run.exec step boot (strayKill.take 2)).any fun s =>
      ((List.finRange nProc).all fun q => (s.proc q).state = .unused || (s.proc q).pid ≠ 0) &&
      (s.step (.kill s.initproc 0)).any fun t => (t.proc s.initproc).eax = 0) = true := by decide
  have hk : ((Run.exec step boot strayKill).any fun k => (List.finRange nProc).any fun q =>
      (k.proc q).state = .runnable && (k.proc q).pid = 2 && (k.proc q).killed) = true := by decide
  obtain ⟨s, hexec, hs⟩ := (Option.any_eq_true _ _).mp hs
  obtain ⟨k, hexec', hk⟩ := (Option.any_eq_true _ _).mp hk
  obtain ⟨hall, ht⟩ := Bool.and_eq_true_iff.mp hs
  obtain ⟨t, hstep, heax⟩ := (Option.any_eq_true _ _).mp ht
  obtain ⟨q, -, hq⟩ := List.any_eq_true.mp hk
  refine ⟨s, t, k, hexec, fun p hp => ?_, hstep, of_decide_eq_true heax, hexec', q, ?_⟩
  · have hone := List.all_eq_true.mp hall p (List.mem_finRange p)
    simpa [hp] using hone
  · simpa [and_assoc] using hq

/-- A run that reaches the end of a `fork` without any `kill`. -/
theorem kill_spares_forked : ∃ k, Run.exec step boot
      [.schedule boot.initproc, .trap boot.initproc, .fork boot.initproc, .forkCopy boot.initproc] = some k ∧
    ∀ p np t, (k.proc p).activity = .fork np true → k.step (.forkFinish p) = some t → (t.proc np).killed = false := by
  have hrun : (Run.exec step boot [.schedule boot.initproc, .trap boot.initproc, .fork boot.initproc,
    .forkCopy boot.initproc]).isSome := by decide
  obtain ⟨k, hk⟩ := Option.isSome_iff_exists.mp hrun
  refine ⟨k, hk, (kill_spares hk (Run.Always.of_mem fun e he s t => ?_)).2⟩
  simp only [List.mem_cons, List.not_mem_nil, or_false] at he
  rcases he with rfl | rfl | rfl | rfl <;> exact trivial

end Table

end Xv6.Family
