import AdvancedXv6.Jobs.Signals

/-! What frames `trapret` loads: at the end of a trap in kernel mode, and after a fault that is taken
for the return of a signal handler. -/

namespace Xv6.Jobs
open Function

variable {k t u : Kernel} {e : Event} {i j c np : Slot} {p q : Proc}

/-! ### No user code in the kernel -/

/-- The frame goes on with the privileges of the kernel. -/
def Frame.Privileged (f : Frame) : Prop := f.cs % 4 = 0

instance (f : Frame) : Decidable f.Privileged := inferInstanceAs (Decidable (_ = _))

namespace Kernel

/-- The frame that `trapret` loads when the system call or trap is over that the step is part of. -/
def loaded (k t : Kernel) : Event → Option Frame
  | .trapEnd page (some tf) => k.cur.map fun c => (trapEnd page (k.proc c) tf).2
  | _ => if t.panicked then none else t.cur.map fun c => (t.proc c).tf

/-- If the frame goes on in the kernel, it is the frame that was interrupted there. -/
def NoEscape (k : Kernel) (e : Event) (t : Kernel) : Prop :=
  ∀ f, k.loaded t e = some f → f.Privileged → ∃ page, e = .trapEnd page (some f)

/-- No signal is delivered at the end of a trap from kernel mode, and no fault takes a frame with
the privileges of the kernel from address 0. -/
structure Contained (k : Kernel) (e : Event) (_ : Kernel) : Prop where
  signal : ∀ page tf c, e = .trapEnd page (some tf) → k.cur = some c → ¬(k.proc c).Signalled
  fault : ∀ low c, e = .fault low → k.cur = some c → (k.proc c).tf1 = none → ¬low.Privileged

/-- The frames of the processes that can go on are from user mode. -/
structure Framed (k : Kernel) : Prop where
  tf : ∀ i, k.cur = some i ∨ (k.proc i).context ≠ .none → ¬(k.proc i).tf.Privileged
  saved : ∀ i f, (k.proc i).tf1 = some f → ¬f.Privileged

end Kernel

theorem initChild_signals {n : Nat} {custom : Option (Int × Int)} :
    (Kernel.initChild n custom p).tf = p.tf ∧ (Kernel.initChild n custom p).tf1 = p.tf1 ∧
      (Kernel.initChild n custom p).customHandler = p.customHandler ∧
      (Kernel.initChild n custom p).pendingCustom = p.pendingCustom := by
  cases custom <;> exact ⟨rfl, rfl, rfl, rfl⟩

/-- A process that has somewhere to go on had it before, or has just been copied. -/
theorem Move.context_back (h : Move k e i p q) (hq : q.context ≠ .none) : k.cur = some i ∨
    p.context ≠ .none ∨ ∃ c custom, e = .forkCopy ∧ k.cur = some c ∧
      (k.proc c).activity = .fork i custom false := by
  have old (h : q.context = p.context) : k.cur = some i ∨ p.context ≠ .none ∨ ∃ c custom,
      e = .forkCopy ∧ k.cur = some c ∧ (k.proc c).activity = .fork i custom false :=
    .inr (.inl (h ▸ hq))
  cases h with
  | roused h => exact old h.context
  | allocated _ _ _ h | failed _ _ _ _ _ h | started _ _ _ h => exact old (by rw [h])
  | copied c custom he hc ha => exact .inr (.inr ⟨c, custom, he, hc, ha⟩)
  | finished _ _ _ _ _ h => exact old (by rw [h, initChild_context])
  | slept _ hc | exited _ hc | ran _ _ _ hc | gaveUp _ hc => exact .inl hc
  | reaped _ _ _ h =>
    rw [h] at hq
    exact absurd rfl hq
  | waited _ _ _ _ h => exact old (by rw [h]; rfl)
  | dispatched _ _ _ _ _ _ _ _ _ _ _ _ _ _ _ _ h =>
    rcases h with ⟨-, h, -⟩ | ⟨h, -⟩
    · exact .inr (.inl h)
    · exact old h
  | suspended _ _ _ h =>
    rcases h with ⟨-, h⟩ | ⟨hc, -⟩
    · exact old (by rw [h])
    · exact .inl hc

/-- The frame of a process that can go on was there before, unless `fork` has just copied it. -/
theorem goes_on_back (hk : k.Wf) (h : k.step e = some t) (hp : t.panicked = false)
    (hi : t.cur = some i ∨ (t.proc i).context ≠ .none) : (k.cur = some i ∨ (k.proc i).context ≠ .none) ∨
      ∃ c custom, e = .forkCopy ∧ k.cur = some c ∧ (k.proc c).activity = .fork i custom false := by
  have hm := step_move hk h i
  rcases hi with hi | hi
  · by_cases hc : k.cur = some i
    · exact .inl (.inl hc)
    · have hrun := (running_step hk h i).mpr hi
      obtain ⟨rfl, hh, -, -⟩ := hm.dispatched_of_running hk hc hrun
      exact .inl (.inr (context_of_dispatched (step_turn hk h) hp hh).1)
  · rcases hm.context_back hi with h | h | h
    · exact .inl (.inl h)
    · exact .inl (.inr h)
    · exact .inr h

theorem Kernel.Framed.step (hk : k.Wf) (hf : k.Framed) (h : k.step e = some t)
    (hp : t.panicked = false) (hC : k.Contained e t) : t.Framed := by
  refine ⟨fun i hi => ?_, fun i f hi => ?_⟩
  · have old (htf : (t.proc i).tf.cs = (k.proc i).tf.cs) (hno : e = .forkCopy → ∀ c custom,
        k.cur = some c → (k.proc c).activity ≠ .fork i custom false) : ¬(t.proc i).tf.Privileged := by
      rw [Frame.Privileged, htf]
      rcases goes_on_back hk h hp hi with hi | ⟨c, custom, he, hc, ha⟩
      · exact hf.tf i hi
      · exact absurd ha (hno he c custom hc)
    cases step_signal hk h i with
    | same hs hno => exact old (congrArg (Frame.cs ∘ Prod.fst) hs) hno
    | copied c custom _ hc _ htf =>
      rw [htf]
      exact hf.tf c (.inl hc)
    | finished c custom he _ _ hq => exact old (by rw [hq, initChild_signals.1]) (by rw [he]; simp)
    | entered tf _ _ htf hq =>
      have htf : tf.cs % 4 = 3 := htf
      rw [hq, Frame.Privileged]
      dsimp only
      omega
    | executed _ _ he _ hq => exact old (by rw [hq]) (by rw [he]; simp)
    | registered _ he _ hq => exact old (by rw [hq]) (by rw [he]; simp)
    | pressed he _ _ hq => exact old (by rw [hq]) (by rw [he]; simp)
    | delivered page kernel he hc hs hq =>
      refine old ?_ (by rw [he]; simp)
      rw [hq]
      dsimp only
      split <;> rfl
    | restored low he hc _ hq =>
      rw [hq]
      dsimp only
      cases hsaved : (k.proc i).tf1 with
      | none => exact hC.fault low i he hc hsaved
      | some f => exact hf.saved i f hsaved
  · have old (htf : (t.proc i).tf1 = (k.proc i).tf1) : ¬f.Privileged := hf.saved i f (htf ▸ hi)
    cases step_signal hk h i with
    | same hs => exact old (congrArg (Prod.fst ∘ Prod.snd) hs)
    | copied _ _ _ _ _ _ htf => exact old htf
    | finished _ _ _ _ _ hq => exact old (by rw [hq, initChild_signals.2.1])
    | entered _ _ _ _ hq | executed _ _ _ _ hq | restored _ _ _ _ hq => exact old (by rw [hq])
    | registered _ _ _ hq | pressed _ _ _ hq => exact old (by rw [hq])
    | delivered page kernel he hc hs hq =>
      cases kernel with
      | some tf => exact absurd hs (hC.signal page tf i he hc)
      | none =>
        rw [hq] at hi
        dsimp only at hi
        split at hi
        · exact Option.some.inj hi ▸ hf.tf i (.inl hc)
        · cases hi

/-- A step of a system whose processes have frames from user mode. -/
theorem no_escape (hft : t.panicked = false → t.Framed) (hC : k.Contained e t) : k.NoEscape e t := by
  intro f hload hpriv
  have user (hl : (if t.panicked then none else t.cur.map fun c => (t.proc c).tf) = some f) : False := by
    split at hl
    · cases hl
    · rename_i hp
      obtain ⟨c, hc, rfl⟩ := Option.map_eq_some_iff.mp hl
      exact (hft (Bool.not_eq_true _ ▸ hp)).tf c (.inl hc) hpriv
  cases e with
  | trapEnd page kernel =>
    cases kernel with
    | none => exact (user hload).elim
    | some tf =>
      obtain ⟨c, hc, hl⟩ := Option.map_eq_some_iff.mp hload
      rw [trapEnd_of_not (hC.signal page tf c rfl hc)] at hl
      exact ⟨page, by rw [← hl]⟩
  | _ => exact (user hload).elim

theorem framed_boot : Kernel.boot.Framed := by
  refine ⟨fun i hi => ?_, fun i f hi => ?_⟩
  · simp only [Kernel.boot] at hi ⊢
    split
    · show ¬Kernel.initFrame.Privileged
      decide
    · rename_i h0
      rw [if_neg h0] at hi
      rcases hi with hi | hi
      · cases hi
      · exact absurd rfl hi
  · simp only [Kernel.boot] at hi
    split at hi <;> cases hi

/-- In a run in which no signal is delivered in kernel mode and no fault takes a privileged frame from
address 0, `trapret` goes on in the kernel only where the kernel was interrupted. -/
theorem user_contained (es : List Event) (h : Run.Always Kernel.step Kernel.Contained Kernel.boot es) :
    Run.Always Kernel.step Kernel.NoEscape Kernel.boot es :=
  Run.Always.of_invariant (I := fun k => k.panicked = false → k.Wf ∧ k.Framed)
    (fun _ _ _ hI hC hs =>
      have h := hI (Kernel.step_some hs).1
      have hft := fun hp => h.2.step h.1 hs hp hC
      ⟨fun hp => ⟨h.1.step hs hp, hft hp⟩, no_escape hft hC⟩)
    (fun _ => ⟨wf_boot, framed_boot⟩) h

/-- What the processor saves at address `eip` of a program. -/
def userFrame (eip : Nat) : Frame := { Kernel.initFrame with eip }

/-- What it saves in the kernel. -/
def kernelFrame : Frame := { Kernel.initFrame with eip := 2148532224, cs := 8 }

/-- The first process registers a handler and is sent a signal while it runs. -/
def handleSignal : List Event :=
  [.scheduler, .enter (userFrame 0), .signal 4096, .enter (userFrame 100), .ctrlG, .trapEnd true none,
    .enter (userFrame 4100)]

/-- It returns from the handler by a fault. -/
theorem user_contained_signal : Run.Always Kernel.step Kernel.NoEscape Kernel.boot
    (handleSignal ++ [.fault kernelFrame, .trapEnd true none]) := by
  refine user_contained _ (Run.always_append.mpr ⟨.of_mem fun e he k t => ?_, fun k hk t _ => ⟨?_, ?_⟩⟩)
  · simp only [handleSignal, List.mem_cons, List.not_mem_nil, or_false] at he
    rcases he with rfl | rfl | rfl | rfl | rfl | rfl | rfl <;> exact ⟨by simp, by simp⟩
  · have hsaved : (Run.exec Kernel.step Kernel.boot handleSignal).any (fun k =>
        k.cur.all fun c => (k.proc c).tf1.isSome) = true := by decide
    rw [hk, Option.any_some] at hsaved
    refine ⟨by simp, fun low c _ hc hnone => ?_⟩
    rw [hc, Option.all_some, hnone] at hsaved
    cases hsaved
  · exact .of_mem fun e he k t => by
      obtain rfl := List.mem_singleton.mp he
      exact ⟨by simp, by simp⟩

/-- A key press comes while the first process is in a system call: the kernel goes on at the address
of the handler. -/
theorem handler_in_kernel : ∃ k t : Kernel, Run.exec Kernel.step Kernel.boot
      [.scheduler, .enter (userFrame 0), .signal 4096, .ctrlG] = some k ∧
    k.step (.trapEnd true (some kernelFrame)) = some t ∧
    k.loaded t (.trapEnd true (some kernelFrame)) = some { kernelFrame with eip := 4096 } ∧
    ¬k.NoEscape (.trapEnd true (some kernelFrame)) t := by
  have h : (Run.exec Kernel.step Kernel.boot
      [.scheduler, .enter (userFrame 0), .signal 4096, .ctrlG]).any (fun k =>
        (k.step (.trapEnd true (some kernelFrame))).any fun t =>
          k.loaded t (.trapEnd true (some kernelFrame)) = some { kernelFrame with eip := 4096 }) = true := by
    decide
  simp only [Option.any_eq_true, decide_eq_true_eq] at h
  obtain ⟨k, hk, t, ht, hload⟩ := h
  refine ⟨k, t, hk, ht, hload, fun h => ?_⟩
  obtain ⟨page, he⟩ := h _ hload rfl
  simp only [Event.trapEnd.injEq, Option.some.injEq] at he
  exact absurd (congrArg Frame.eip he.2) (by decide)

/-! ### The saved frame -/

/-- What is known of the deliveries after the step: for each slot the frame that was saved at the last
delivery to the process, as long as it runs the same program and the frame is not restored. -/
def track (k : Kernel) (e : Event) (t : Kernel) (saved : Slot → Option Frame) (i : Slot) : Option Frame :=
  if (t.proc i).pid ≠ (k.proc i).pid then none
  else if k.cur = some i then
    match e with
    | .trapEnd _ kernel =>
      if (k.proc i).Signalled then some (kernel.getD (k.proc i).tf) else saved i
    | .fault _ | .exec _ _ => none
    | _ => saved i
  else saved i

/-- The system with a record of the deliveries that are not over. -/
def trackStep (s : Kernel × (Slot → Option Frame)) (e : Event) : Option (Kernel × (Slot → Option Frame)) :=
  (s.1.step e).map fun t => (t, track s.1 e t s.2)

/-- The record is what `tf1` holds, if there is a page for it. -/
def Saved (s : Kernel × (Slot → Option Frame)) : Prop :=
  ∀ i f, s.2 i = some f → (s.1.proc i).tf1 = none ∨ (s.1.proc i).tf1 = some f

/-- A fault of the process `c` is taken for the return of a handler if there is a delivery that is
not over, and kills the process otherwise. -/
def FaultReturns (k t : Kernel) (c : Slot) : Option Frame → Prop
  | some f => (k.proc c).tf1 = some f ∧ (t.proc c).tf = f
  | none => (t.proc c).killed = true ∧ (t.proc c).tf = (k.proc c).tf

theorem Saved.step {s s' : Kernel × (Slot → Option Frame)} (hk : s.1.Wf) (hs : Saved s)
    (h : trackStep s e = some s') : Saved s' := by
  obtain ⟨k, saved⟩ := s
  obtain ⟨t, ht, rfl⟩ := Option.map_eq_some_iff.mp h
  dsimp only at ht hk ⊢
  intro i f hf
  dsimp only at hf ⊢
  have hsig := step_signal hk ht i
  have old (htf : (t.proc i).tf1 = (k.proc i).tf1) (hno : ∀ page kernel, e = .trapEnd page kernel →
      k.cur = some i → ¬(k.proc i).Signalled) : (t.proc i).tf1 = none ∨ (t.proc i).tf1 = some f := by
    rw [htf]
    refine hs i f ?_
    unfold track at hf
    split at hf
    · cases hf
    · split at hf
      · split at hf
        · rename_i hc _ page kernel
          rwa [if_neg (hno page kernel rfl hc)] at hf
        · cases hf
        · cases hf
        · exact hf
      · exact hf
  cases hsig with
  | same h _ he =>
    exact old (congrArg (Prod.fst ∘ Prod.snd) h) fun page kernel hpk hc => (he hc).2 page kernel hpk
  | copied _ _ he _ _ _ htf => exact old htf (by rw [he]; simp)
  | finished _ _ he _ _ hq => exact old (by rw [hq, initChild_signals.2.1]) (by rw [he]; simp)
  | entered _ he _ _ hq | executed _ _ he _ hq | restored _ he _ _ hq =>
    exact old (by rw [hq]) (by rw [he]; simp)
  | registered _ he _ hq | pressed he _ _ hq => exact old (by rw [hq]) (by rw [he]; simp)
  | delivered page kernel he hc hsig hq =>
    subst he
    unfold track at hf
    rw [hq, if_neg (not_not.mpr rfl), if_pos hc] at hf
    dsimp only at hf
    rw [if_pos hsig] at hf
    rw [hq]
    dsimp only
    split
    · exact .inr hf
    · exact .inl rfl

theorem run_saved {es : List Event} {s : Kernel × (Slot → Option Frame)}
    (h : Run.exec trackStep (Kernel.boot, fun _ => none) es = some s) : s.1.Reachable ∧ Saved s := by
  refine Run.invariant (I := fun s => s.1.Reachable ∧ Saved s) (fun s e s' hI hs => ?_) ?_ h
  · obtain ⟨u, hu, rfl⟩ := Option.map_eq_some_iff.mp hs
    exact ⟨hI.1.next hu, hI.2.step (hI.1.wf (Kernel.step_some hu).1) hs⟩
  · exact ⟨Run.Reaches.refl _, fun _ _ h => absurd h (by simp)⟩

/-- A fault restores the frame of the delivery that is not over exactly if there is one, and there was
a page to save its frame. -/
theorem fault_returns {es : List Event} {k t : Kernel} {saved : Slot → Option Frame} {low : Frame}
    (h : Run.exec trackStep (Kernel.boot, fun _ => none) es = some (k, saved))
    (ht : k.step (.fault low) = some t) (hc : k.cur = some c) :
    FaultReturns k t c (saved c) ↔ (saved c).isSome ∧ (k.proc c).tf1.isSome := by
  have hsaved := (run_saved h).2
  obtain ⟨-, -, hperf⟩ := Kernel.step_some ht
  obtain ⟨c', hc', hperf⟩ := Option.bind_eq_some_iff.mp hperf
  obtain rfl := Option.some.inj (hc.symm.trans hc')
  split at hperf
  · cases hperf
  · rename_i hkill
    obtain rfl := Option.some.inj hperf
    cases hf : saved c with
    | none =>
      rw [FaultReturns, Kernel.modify_proc]
      exact ⟨fun h => absurd h.1 hkill, fun h => absurd h.1 (by simp)⟩
    | some f =>
      rw [FaultReturns, Kernel.modify_proc, Kernel.fault]
      dsimp only
      constructor
      · rintro ⟨htf, -⟩
        exact ⟨rfl, by rw [htf]; rfl⟩
      · rintro ⟨-, htf⟩
        rcases hsaved c f hf with h | h
        · rw [show (k.proc c).tf1 = none from h] at htf
          cases htf
        · rw [show (k.proc c).tf1 = some f from h]
          exact ⟨rfl, rfl⟩

theorem fault_returns_signal : ∃ k t saved, Run.exec trackStep (Kernel.boot, fun _ => none) handleSignal =
      some (k, saved) ∧ k.step (.fault kernelFrame) = some t ∧ k.cur = some ⟨0, by decide⟩ ∧
    saved ⟨0, by decide⟩ = some (userFrame 100) ∧ FaultReturns k t ⟨0, by decide⟩ (saved ⟨0, by decide⟩) := by
  have h : (Run.exec trackStep (Kernel.boot, fun _ => none) handleSignal).any (fun s =>
      (s.1.step (.fault kernelFrame)).any fun _ => s.1.cur = some ⟨0, by decide⟩ ∧
        s.2 ⟨0, by decide⟩ = some (userFrame 100) ∧ (s.1.proc ⟨0, by decide⟩).tf1.isSome) = true := by
    decide
  simp only [Option.any_eq_true, decide_eq_true_eq] at h
  obtain ⟨⟨k, saved⟩, hk, t, ht, hc, hsaved, htf⟩ := h
  exact ⟨k, t, saved, hk, ht, hc, hsaved,
    (fault_returns hk ht hc).mpr ⟨Option.isSome_iff_exists.mpr ⟨_, hsaved⟩, htf⟩⟩

/-- The first process, which has no handler, reads where it may not: it goes on with the frame that
lies at address 0 of its memory. -/
theorem fault_without_signal : ∃ k t saved,
    Run.exec trackStep (Kernel.boot, fun _ => none) [.scheduler, .enter (userFrame 0)] = some (k, saved) ∧
    k.step (.fault kernelFrame) = some t ∧ k.cur = some ⟨0, by decide⟩ ∧ saved ⟨0, by decide⟩ = none ∧
    (t.proc ⟨0, by decide⟩).killed = false ∧ (t.proc ⟨0, by decide⟩).tf = kernelFrame ∧
    ¬FaultReturns k t ⟨0, by decide⟩ (saved ⟨0, by decide⟩) := by
  refine ⟨_, _, _, rfl, rfl, rfl, rfl, rfl, rfl, fun h => ?_⟩
  cases h.1

end Xv6.Jobs
