import AdvancedXv6.Jobs.Counters

/-! Context switches: how often a process has given up the processor to another one, and what the counter
`context_switches` has of it. -/

namespace Xv6.Jobs
open Function

variable {k t : Kernel} {e : Event} {i j c : Slot} {p q : Proc} {n m : Int} {custom : Option (Int × Int)}

/-! ### The order of the dispatches -/

structure Dispatch where
  pid : Int
  /-- the process starts at `forkret` -/
  first : Bool
deriving DecidableEq

/-- The process that has come back inside `sched` last; the latest dispatch is the first of the list. -/
def lastBack : List Dispatch → Option Int
  | [] => none
  | d :: h => if d.first = true then lastBack h else some d.pid

/-- How often the process has given up the processor and another one was next. -/
def switches (q : Int) : List Dispatch → Nat
  | d :: u :: h => switches q (u :: h) + if u.pid = q ∧ d.pid ≠ q then 1 else 0
  | _ => 0

/-- The switches that no counter shows: those at the end of the first run of a process, and those to new processes
only, after which the process is the next one to come back. -/
def missed (q : Int) : List Dispatch → Nat
  | d :: u :: h => missed q (u :: h) + if u.first = true ∧ (u.pid = q ∧ d.pid ≠ q ∨
      d.first = false ∧ d.pid = q ∧ lastBack (u :: h) = some q) then 1 else 0
  | _ => 0

/-- Nobody has come back yet to count the last switch. -/
def pending (q : Int) : List Dispatch → Nat
  | u :: h => if u.first = true ∧ lastBack (u :: h) = some q then 1 else 0
  | [] => 0

-- the equations of the counts are made here, once for all proofs
section
attribute [local simp] switches missed pending
end

/-- A first run has no run before it. -/
def Starts (d u : Dispatch) : Prop := d.first = true → u.pid ≠ d.pid

variable {d u : Dispatch} {h : List Dispatch}

theorem mem_of_lastBack (hb : lastBack h = some n) : ∃ u ∈ h, u.pid = n := by
  induction h with
  | nil => exact absurd hb (Option.some_ne_none n).symm
  | cons d h ih =>
    rw [lastBack] at hb
    split at hb
    · obtain ⟨u, hu, hn⟩ := ih hb
      exact ⟨u, List.mem_cons_of_mem _ hu, hn⟩
    · exact ⟨d, List.mem_cons_self, Option.some.inj hb⟩

theorem zero_of_not_mem (hn : ∀ u ∈ h, u.pid ≠ n) : switches n h = 0 ∧ missed n h = 0 ∧ pending n h = 0 := by
  have hback : lastBack h ≠ some n := fun hb => by
    obtain ⟨u, hu, hq⟩ := mem_of_lastBack hb
    exact hn u hu hq
  induction h with
  | nil => exact ⟨rfl, rfl, rfl⟩
  | cons d h ih =>
    have hpend : pending n (d :: h) = 0 := if_neg fun hand => hback hand.2
    cases h with
    | nil => exact ⟨rfl, rfl, hpend⟩
    | cons u h =>
      have hu : u.pid ≠ n := hn u (List.mem_cons_of_mem _ List.mem_cons_self)
      have hd : d.pid ≠ n := hn d List.mem_cons_self
      obtain ⟨hs, hm, -⟩ := ih (fun v hv => hn v (List.mem_cons_of_mem _ hv)) fun hb => by
        obtain ⟨v, hv, hq⟩ := mem_of_lastBack hb
        exact hn v (List.mem_cons_of_mem _ hv) hq
      rw [switches, missed, hs, hm, if_neg fun hand => hu hand.1, if_neg fun hand => hand.2.elim (fun h => hu h.1) fun h => hd h.2.1]
      exact ⟨rfl, rfl, hpend⟩

/-- A new process is dispatched: the switch to it counts, or stays to be counted. -/
theorem balance_first {x : Nat} (hd : d.first = true) (hnew : ∀ u ∈ h, u.pid ≠ d.pid)
    (hx : switches n h = x + missed n h + pending n h) :
    switches n (d :: h) = x + missed n (d :: h) + pending n (d :: h) := by
  cases h with
  | nil =>
    have hnone : pending n [d] = 0 := if_neg fun hand => by
      rw [lastBack, if_pos hd] at hand
      exact Option.some_ne_none n hand.2.symm
    rw [hnone]
    exact hx
  | cons u h =>
    have hne : u.pid ≠ d.pid := hnew u List.mem_cons_self
    have hback : lastBack (d :: u :: h) = lastBack (u :: h) := if_pos hd
    have hafter : pending n (d :: u :: h) = if lastBack (u :: h) = some n then 1 else 0 := by
      rw [pending, hback, hd]
      exact if_congr (and_iff_right rfl) rfl rfl
    rw [switches, missed, hafter, hx, pending, hd]
    by_cases hu : u.first = true
    · by_cases hq : u.pid = n
      · simp only [hu, hq, hq ▸ hne.symm, true_and, ne_eq, not_false_eq_true, true_or, if_true]
        omega
      · simp only [hu, hq, true_and, false_and, Bool.true_eq_false, or_self, if_false]
        omega
    · have hlast : lastBack (u :: h) = some u.pid := if_neg hu
      by_cases hq : u.pid = n
      · simp only [hu, hlast, hq, hq ▸ hne.symm, false_and, true_and, ne_eq, not_false_eq_true, if_true, if_false,
          Bool.false_eq_true]
        omega
      · simp only [hu, hlast, hq, false_and, if_false, Bool.false_eq_true, Option.some.injEq, Nat.add_zero]

/-- A process comes back inside `sched` and counts for the one that has come back before it. -/
theorem balance_back {x : Nat} (hd : d.first = false) (hstart : h.Pairwise Starts)
    (hx : switches n h = x + missed n h + pending n h) :
    switches n (d :: h) = (x + if lastBack h = some n ∧ n ≠ d.pid then 1 else 0) + missed n (d :: h) +
      pending n (d :: h) := by
  have hnone : pending n (d :: h) = 0 := if_neg fun hand => Bool.false_ne_true (hd.symm.trans hand.1)
  rw [hnone]
  cases h with
  | nil =>
    have hno : ¬(lastBack [] = some n ∧ n ≠ d.pid) := fun hand => Option.some_ne_none n hand.1.symm
    rw [if_neg hno]
    exact hx
  | cons u h =>
    rw [switches, missed, hx, pending, hd]
    by_cases hu : u.first = true
    · have hback : lastBack (u :: h) ≠ some u.pid := fun hb => by
        rw [lastBack, if_pos hu] at hb
        obtain ⟨v, hv, hq⟩ := mem_of_lastBack hb
        exact (List.pairwise_cons.mp hstart).1 v hv hu hq
      by_cases hq : u.pid = n
      · subst hq
        simp only [hu, hback, true_and, false_and, and_false, or_false, if_false, ne_eq]
        omega
      · by_cases hb : lastBack (u :: h) = some n
        · by_cases hdn : d.pid = n
          · simp only [hu, hq, hb, hdn, true_and, false_and, false_or, if_true, if_false, ne_eq, not_true_eq_false]
            omega
          · simp only [hu, hq, hb, hdn, Ne.symm hdn, true_and, false_and, and_false, or_self, if_true, if_false, ne_eq,
              not_false_eq_true]
            omega
        · simp only [hu, hq, hb, false_and, and_false, or_self, if_false, Nat.add_zero]
    · have hlast : lastBack (u :: h) = some u.pid := if_neg hu
      simp only [hu, hlast, false_and, if_false, Nat.add_zero, Option.some.injEq, Bool.false_eq_true]
      by_cases hq : u.pid = n
      · subst hq
        simp only [true_and, ne_comm (a := u.pid)]
        omega
      · simp only [hq, false_and, if_false, Nat.add_zero]

/-! ### The record of a run -/

structure Record where
  /-- the latest first -/
  dispatches : List Dispatch
  /-- the processes that have exited -/
  exited : List Int
  /-- the processes whose `fork` has ended, and the first process -/
  created : List Int

/-- What the step adds. -/
def Record.note (k : Kernel) (e : Event) (t : Kernel) (r : Record) : Record :=
  match e, k.cur, t.cur with
  | .scheduler, _, some c =>
    { r with dispatches := ⟨(k.proc c).pid, decide ((k.proc c).context = .forkret)⟩ :: r.dispatches }
  | .exit, some c, _ => { r with exited := (k.proc c).pid :: r.exited }
  | .forkFinish, some c, _ => match (k.proc c).activity with
    | .fork np _ _ => { r with created := (k.proc np).pid :: r.created }
    | _ => r
  | _, _, _ => r

/-- The system with the record of its run. -/
def recStep (s : Kernel × Record) (e : Event) : Option (Kernel × Record) :=
  (s.1.step e).map fun t => (t, s.2.note s.1 e t)

/-- Nothing has happened yet. -/
def recBoot : Kernel × Record := (Kernel.boot, ⟨[], [], [1]⟩)

/-- The process is complete, and runs or has a place to go on. -/
def Live (k : Kernel) (r : Record) (i : Slot) : Prop := (k.proc i).pid ∈ r.created ∧
  (k.cur = some i ∨ (k.proc i).context ≠ .none ∧ (k.proc i).context ≠ .exit)

/-- What the record and the counters have to do with each other. -/
structure Tallied (k : Kernel) (r : Record) : Prop where
  created : ∀ n ∈ r.created, 0 < n ∧ n < k.nextpid
  making : ∀ i, k.Making i → (k.proc i).pid ∉ r.created
  dispatched : ∀ d ∈ r.dispatches, d.pid ∈ r.created
  exited : ∀ n ∈ r.exited, n ∈ r.created
  fresh : ∀ i, (k.proc i).context = .forkret → ∀ d ∈ r.dispatches, d.pid ≠ (k.proc i).pid
  once : r.dispatches.Pairwise Starts
  alive : ∀ i, Live k r i → (k.proc i).pid ∉ r.exited
  counter : ∀ i, Live k r i → ∃ x : Nat, (k.proc i).contextSwitches = int x ∧
    switches (k.proc i).pid r.dispatches = x + missed (k.proc i).pid r.dispatches + pending (k.proc i).pid r.dispatches
  prev : ∀ j, k.prevProc = some j → Live k r j ∧ lastBack r.dispatches = some (k.proc j).pid
  back : ∀ n, lastBack r.dispatches = some n → n ∉ r.exited → ∃ j, k.prevProc = some j
  running : ∀ c, k.cur = some c → (k.proc c).pid ∈ r.created ∧
    ∃ d h, r.dispatches = d :: h ∧ d.pid = (k.proc c).pid

variable {r : Record}

/-- The scheduler alone makes a process run. -/
theorem cur_back (hk : k.Wf) (ht : t.Wf) (h : k.step e = some t) (he : e ≠ .scheduler) (hi : t.cur = some i) :
    k.cur = some i := by
  by_contra hno
  exact he ((step_move hk h i).dispatched_of_running hk hno ((ht.running i).mpr hi)).1

theorem Live.back (hk : k.Wf) (ht : t.Wf) (hn : ∀ n ∈ r.created, 0 < n ∧ n < k.nextpid)
    (hm : ∀ i, k.Making i → (k.proc i).pid ∉ r.created) (h : k.step e = some t) (he : e ≠ .scheduler)
    (hl : Live t r i) : Live k r i ∧ (t.proc i).pid = (k.proc i).pid := by
  obtain ⟨hin, hplace⟩ := hl
  have hpid : (t.proc i).pid = (k.proc i).pid := by
    rcases (step_move hk h i).pid hk with ⟨hp, -⟩ | ⟨-, -, hp⟩ | ⟨hp, -⟩
    · exact hp
    · exact absurd (hp ▸ (hn _ hin).2) (lt_irrefl _)
    · exact absurd (hp ▸ (hn _ hin).1) (lt_irrefl _)
  refine ⟨⟨hpid ▸ hin, ?_⟩, hpid⟩
  rcases hplace with hcur | ⟨hx, hx'⟩
  · exact .inl (cur_back hk ht h he hcur)
  · have hsame (hc : (t.proc i).context = (k.proc i).context) :
        k.cur = some i ∨ (k.proc i).context ≠ .none ∧ (k.proc i).context ≠ .exit := .inr ⟨hc ▸ hx, hc ▸ hx'⟩
    cases step_move hk h i with
    | roused h => exact hsame h.context
    | allocated _ _ _ hq => exact hsame (by rw [hq])
    | failed _ _ _ _ _ hq => exact hsame (by rw [hq])
    | copied c custom _ _ ha => exact absurd (hpid ▸ hin) (hm i ⟨c, custom, false, ha⟩)
    | finished _ _ _ _ _ hq => exact hsame (by rw [hq, initChild_context])
    | started _ _ _ hq => exact hsame (by rw [hq])
    | slept _ hc | exited _ hc | ran _ _ _ hc | gaveUp _ hc => exact .inl hc
    | reaped _ _ _ hq => exact absurd (by rw [hq]) hx
    | waited _ _ _ _ hq => exact hsame (by rw [hq]; rfl)
    | dispatched he' => exact absurd he' he
    | suspended _ _ _ hq =>
      rcases hq with ⟨-, hq⟩ | ⟨hc, -⟩
      · exact hsame (by rw [hq])
      · exact .inl hc

theorem Live.forth (hk : k.Wf) (ht : t.Wf) (h : k.step e = some t) (he : e ≠ .scheduler) (hl : Live k r i)
    (hz : (t.proc i).state ≠ .zombie) : Live t r i ∧ (t.proc i).pid = (k.proc i).pid := by
  obtain ⟨hin, hplace⟩ := hl
  have hrun (hc : k.cur = some i) : (k.proc i).state = .running := (hk.running i).mpr hc
  have hnone (hx : (k.proc i).context = .none) (hs : (k.proc i).state ≠ .running) : False := by
    rcases hplace with hc | hx'
    · exact hs (hrun hc)
    · exact hx'.1 hx
  have hstill (hs : (t.proc i).state = .running) (hp : (t.proc i).pid = (k.proc i).pid) :
      Live t r i ∧ (t.proc i).pid = (k.proc i).pid := ⟨⟨hp ▸ hin, .inl ((ht.running i).mp hs)⟩, hp⟩
  have hplaced {x : Context} (hx : (t.proc i).context = x) (hne : x ≠ .none ∧ x ≠ .exit)
      (hp : (t.proc i).pid = (k.proc i).pid) : Live t r i ∧ (t.proc i).pid = (k.proc i).pid :=
    ⟨⟨hp ▸ hin, .inr (hx ▸ hne)⟩, hp⟩
  cases step_move hk h i with
  | roused h =>
    rcases hplace with hc | hx
    · rcases h.state with hs | ⟨hs, -⟩
      · exact hstill (hs.trans (hrun hc)) h.pid
      · rw [hrun hc] at hs
        exact absurd hs (by decide)
    · exact hplaced h.context hx h.pid
  | allocated _ _ hp => exact (hnone (hk.unused i hp) (by rw [hp]; decide)).elim
  | failed c custom _ _ ha | copied c custom _ _ ha =>
    obtain ⟨hx, hcur⟩ := (hk.fork c i custom false ha).early rfl
    exact (hnone hx fun hs => hcur ((hk.running i).mp hs)).elim
  | finished c custom _ hc ha hq =>
    have hne := (hk.fork c i custom true ha).ne
    refine hplaced (x := (k.proc i).context) (by rw [hq, initChild_context]) ?_ (by rw [hq, initChild_pid])
    exact hplace.resolve_left fun hi => hne (Option.some.inj (hc.symm.trans hi))
  | started _ _ hs hq =>
    refine hplaced (x := (k.proc i).context) (by rw [hq]) (hplace.resolve_left fun hi => ?_) (by rw [hq])
    cases hs.symm.trans (hrun hi)
  | slept _ _ h _ hx => exact hplaced hx (by decide) h.pid
  | exited _ _ _ hs => exact absurd hs hz
  | reaped _ _ hs =>
    refine (hplace.elim (fun hc => ?_) fun hx => hx.2 (hk.zombie i hs)).elim
    cases hs.symm.trans (hrun hc)
  | waited _ _ _ hs hq =>
    refine hplaced (x := (k.proc i).context) (by rw [hq]; rfl) (hplace.resolve_left fun hi => ?_) (by rw [hq]; rfl)
    cases hs.symm.trans (hrun hi)
  | ran _ _ _ hc _ hq =>
    rcases hq with hq | hq
    · exact hplaced (x := .yield) (by rw [hq]) (by decide) (by rw [hq])
    · refine hstill ?_ (by rw [hq])
      rw [hq]
      exact hrun hc
  | dispatched he' => exact absurd he' he
  | suspended _ _ _ hq =>
    rcases hq with ⟨hc, hq⟩ | ⟨-, hq⟩
    · exact hplaced (x := (k.proc i).context) (by rw [hq]) (hplace.resolve_left hc) (by rw [hq])
    · exact hplaced (x := .yield2) (by rw [hq]) (by decide) (by rw [hq])
  | gaveUp _ hc hq =>
    rcases hq with hq | hq
    · exact hplaced (x := .yield2) (by rw [hq]) (by decide) (by rw [hq])
    · refine hstill ?_ (by rw [hq])
      rw [hq]
      exact hrun hc

end Xv6.Jobs
