import AdvancedXv6.Jobs.StartLater
import Mathlib.Data.List.MinMax
import Mathlib.Data.Prod.Lex
import Mathlib.Data.Int.ConditionallyCompleteOrder
import Mathlib.Order.ConditionallyCompleteLattice.Basic

/-! Which process a round of the scheduler selects, whatever the values of the priorities are. -/

namespace Xv6.Jobs
open Function

variable {k u : Kernel} {value : Proc → Int} {i c : Slot} {p : Proc} {n : Nat}

namespace Kernel

/-- The first loop of `scheduler`, when the expression for the priority has the given value. -/
def prioritiseBy (value : Proc → Int) (k : Kernel) : Kernel :=
  k.each fun _ p => if p.state = .runnable then helper3 { p with dynPriority := value p } else p

/-- One round of `scheduler` with these priorities. -/
def schedulerBy (value : Proc → Int) (k : Kernel) : Kernel :=
  let k := k.prioritiseBy value
  match k.highest with
  | none => k
  | some p => ((k.helper4 p).modify p (setRunning k.ticks)).swtch p

theorem schedulerBy_priority : k.schedulerBy Proc.priority = k.scheduler := rfl

/-- Smaller for higher priorities, and among equal ones for older processes. -/
def rank (k : Kernel) (i : Slot) : ℤ ×ₗ ℤ := toLex (-(k.proc i).dynPriority, (k.proc i).pid)

theorem rank_lt {h : Slot} : k.rank i < k.rank h ↔ (k.proc h).dynPriority < (k.proc i).dynPriority ∨
    (k.proc i).dynPriority = (k.proc h).dynPriority ∧ (k.proc i).pid < (k.proc h).pid := by
  rw [rank, rank, Prod.Lex.toLex_lt_toLex, neg_lt_neg_iff, neg_inj]

/-- The second loop looks for the least rank. -/
theorem highest_eq : k.highest = ((List.finRange nProc).filter fun i => k.Selectable i).argmin k.rank := by
  have hbody : k.better = fun best p => if decide (k.Selectable p) = true then
      List.argAux (fun b c => k.rank b < k.rank c) best p else best := by
    funext best p
    unfold better
    refine if_congr decide_eq_true_iff.symm ?_ rfl
    cases best with
    | none => rfl
    | some h =>
      rw [List.argAux]
      exact (ite_congr (propext rank_lt) (fun _ => rfl) fun _ => rfl).symm
  rw [highest, hbody, ← List.foldl_filter]
  rfl

theorem highest_eq_none_iff : k.highest = none ↔ ∀ i, ¬k.Selectable i := by
  rw [highest_eq, List.argmin_eq_none, List.filter_eq_nil_iff]
  exact ⟨fun h i hi => h i (List.mem_finRange i) (decide_eq_true hi), fun h i _ hi => h i (of_decide_eq_true hi)⟩

theorem highest_least (hc : k.highest = some c) (hi : k.Selectable i) : k.rank c ≤ k.rank i := by
  rw [highest_eq] at hc
  exact List.le_of_mem_argmin (List.mem_filter.mpr ⟨List.mem_finRange i, decide_eq_true hi⟩) hc

theorem prioritiseBy_proc (value : Proc → Int) : ∃ n, (k.prioritiseBy value).proc i = { k.proc i with dynPriority := n } := by
  change ∃ n, (if (k.proc i).state = .runnable then _ else _) = _
  split
  · rw [helper3]
    split <;> exact ⟨_, rfl⟩
  · exact ⟨_, rfl⟩

theorem selectable_prioritiseBy : (k.prioritiseBy value).Selectable i ↔ k.Selectable i := by
  obtain ⟨n, hn⟩ := prioritiseBy_proc (k := k) (i := i) value
  rw [Selectable, hn]
  exact Iff.rfl

theorem prioritiseBy_pid : ((k.prioritiseBy value).proc i).pid = (k.proc i).pid := by
  obtain ⟨n, hn⟩ := prioritiseBy_proc (k := k) (i := i) value
  rw [hn]

theorem prioritiseBy_dynPriority (hs : (k.proc i).state = .runnable) :
    ((k.prioritiseBy value).proc i).dynPriority = max 0 (value (k.proc i)) := by
  change (if (k.proc i).state = .runnable then _ else _ : Proc).dynPriority = _
  rw [if_pos hs, helper3]
  split
  · next hneg => exact (max_eq_left hneg.le).symm
  · next hpos => exact (max_eq_right (not_lt.mp hpos)).symm

/-- What the switch to a process changes of the table. -/
theorem swtch_same {β : Type} {f : Proc → β}
    (hf : ∀ p n ch x, f { p with contextSwitches := n, chan := ch, context := x } = f p) :
    f ((u.swtch c).proc i) = f (u.proc i) := by
  obtain ⟨n, hn⟩ := schedReturn_proc (k := u) (c := c) (i := i)
  have hback : f ((u.schedReturn c).proc i) = f (u.proc i) := by
    rw [hn]
    exact hf (u.proc i) n (u.proc i).chan (u.proc i).context
  have hput {w : Kernel} {g : Proc → Proc} (hg : ∀ p, f (g p) = f p) : f ((w.modify c g).proc i) = f (w.proc i) := by
    rw [modify_apply]
    split
    · exact hg _
    · rfl
  rw [swtch]
  split
  · rfl
  · rfl
  · exact hput fun p => hf p p.contextSwitches p.chan .none
  · exact (hput fun p => hf p p.contextSwitches none .none).trans hback
  · exact hback
  · exact (hput fun p => hf p p.contextSwitches p.chan .none).trans hback

end Kernel

open Kernel

/-- The value of `p->dyn_priority` that the round goes by. -/
def fresh (value : Proc → Int) (p : Proc) : Int := max 0 (value p)

/-- One round of the scheduler selects a process if there is one that it does not pass over: of the highest priority,
and among those the one with the smallest pid. The selected process alone starts to wait anew, and has its first run
noted if it had none. -/
theorem scheduler_chooses (h : k.cur = none) :
    ((k.schedulerBy value).cur = none ↔ ∀ i, ¬k.Selectable i) ∧
    (∀ p, (k.schedulerBy value).cur = some p → k.Selectable p ∧ ∀ i, k.Selectable i →
      fresh value (k.proc i) ≤ fresh value (k.proc p) ∧
      (fresh value (k.proc i) = fresh value (k.proc p) → (k.proc p).pid ≤ (k.proc i).pid)) ∧
    ∀ i, ((k.schedulerBy value).proc i).waitTicks =
        (if (k.schedulerBy value).cur = some i then 0 else (k.proc i).waitTicks) ∧
      ((k.schedulerBy value).proc i).firstRunTime =
        if (k.schedulerBy value).cur = some i ∧ (k.proc i).firstRunTime = -1 then int k.ticks
        else (k.proc i).firstRunTime := by
  have hnone := highest_eq_none_iff (k := k.prioritiseBy value)
  simp only [selectable_prioritiseBy] at hnone
  cases hh : (k.prioritiseBy value).highest with
  | none =>
    have hround : k.schedulerBy value = k.prioritiseBy value := by rw [schedulerBy, hh]
    have hcur : (k.prioritiseBy value).cur = none := h
    rw [hround, hcur]
    refine ⟨⟨fun _ => hnone.mp hh, fun _ => rfl⟩, fun p hp => absurd hp (Option.some_ne_none p).symm, fun i => ?_⟩
    obtain ⟨n, hn⟩ := prioritiseBy_proc (k := k) (i := i) value
    rw [hn, if_neg (Option.some_ne_none i).symm, if_neg fun hand => Option.some_ne_none i hand.1.symm]
    exact ⟨rfl, rfl⟩
  | some c =>
    have hround : k.schedulerBy value = (((k.prioritiseBy value).helper4 c).modify c (setRunning k.ticks)).swtch c := by
      rw [schedulerBy, hh]
      rfl
    have hcur : (k.schedulerBy value).cur = some c := by
      rw [hround]
      exact same_swtch.cur
    have hsel := selectable_prioritiseBy.mp (best_highest.selectable c hh)
    rw [hcur]
    refine ⟨⟨fun hp => absurd hp (Option.some_ne_none c), fun hno => absurd hsel (hno c)⟩, fun p hp => ?_, fun i => ?_⟩
    · obtain rfl := Option.some.inj hp
      refine ⟨hsel, fun i hi => ?_⟩
      have hle := highest_least hh (selectable_prioritiseBy.mpr hi)
      rw [rank, rank, Prod.Lex.toLex_le_toLex, prioritiseBy_dynPriority hsel.1, prioritiseBy_dynPriority hi.1,
        prioritiseBy_pid, prioritiseBy_pid, neg_lt_neg_iff, neg_inj] at hle
      rcases hle with hlt | ⟨heq, hpid⟩
      · exact ⟨hlt.le, fun heq => absurd heq hlt.ne⟩
      · exact ⟨heq.ge, fun _ => hpid⟩
    · obtain ⟨n, hn⟩ := prioritiseBy_proc (k := k) (i := i) value
      rw [hround, swtch_same (f := Proc.waitTicks) fun _ _ _ _ => rfl,
        swtch_same (f := Proc.firstRunTime) fun _ _ _ _ => rfl]
      by_cases hi : i = c
      · subst hi
        rw [modify_proc, helper4_proc, hn, if_pos rfl]
        refine ⟨rfl, ?_⟩
        change (if (k.proc i).firstRunTime = -1 then _ else _) = _
        exact if_congr (and_iff_right rfl).symm rfl rfl
      · have hne : some c ≠ some i := fun heq => hi (Option.some.inj heq).symm
        rw [modify_proc_of_ne hi, helper4_proc_of_ne hi, hn, if_neg hne, if_neg fun hand => hne hand.1]
        exact ⟨rfl, rfl⟩

theorem scheduler_chooses_boot : (boot.schedulerBy Proc.priority).cur ≠ none := fun hnone =>
  (scheduler_chooses rfl).1.mp hnone ⟨0, by decide⟩ (by decide)

end Xv6.Jobs
