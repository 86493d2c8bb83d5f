import AdvancedXv6.Family.Exit

/-! No child is lost: what `exit` and `wait` promise about processes and their parents. -/

namespace Xv6.Family
open Function

namespace Table
variable {k t : Table} {p q c : Slot} {e : Event} {es : List Event}

/-- The process whose `wait` looks at the table in the event. -/
def waits (k : Table) : Event → Option Slot
  | .wait p => some p
  | .schedule p => if (k.proc p).activity = .wait then some p else none
  | _ => none

structure Kept (k : Table) : Prop where
  /-- an exited process is a zombie until it is freed -/
  zombie : ∀ n ∈ k.exited, (∃ p, k.Zombie p ∧ (k.proc p).pid = n) ∨ ∃ r, (n, r) ∈ k.reaped
  once : (k.reaped.map Prod.fst).Nodup
  /-- it is freed by its maker, or by init if the maker has exited -/
  heir : ∀ x ∈ k.reaped, x.1 ∈ k.exited ∧ k.Heir x.1 x.2
  asleep : ∀ p, (k.proc p).state = .sleeping → (k.proc p).activity = .wait → k.NoZombie p
  parent : ∀ p, p ≠ k.initproc → k.Live p → ∃ q, (k.proc p).parent = some q ∧ k.Live q

structure Keeps (k : Table) (e : Event) (t : Table) : Prop where
  /-- a zombie changes only where its parent's `wait` frees it -/
  zombie : ∀ p, k.Zombie p → t.Zombie p ∧ (t.proc p).pid = (k.proc p).pid ∨
    ∃ c, k.waits e = some c ∧ (k.proc p).parent = some c ∧ t.reaped = k.reaped ++ [((k.proc p).pid, (k.proc c).pid)]
  /-- `wait` fails without children, or in a process that a `kill` has named -/
  failed : ∀ c, k.waits e = some c → (t.proc c).activity = .returning → (t.proc c).eax = -1 →
    (∀ p, (k.proc p).parent ≠ some c) ∨ (k.proc c).pid ∈ k.kills

theorem Wf.kept (h : k.Wf) : k.Kept where
  zombie n hn := by
    refine ((h.exited n).mp hn).imp_right fun hr => ?_
    obtain ⟨x, hx, rfl⟩ := List.mem_map.mp hr
    exact ⟨x.2, hx⟩
  once := h.nodup
  heir x hx := ⟨(h.exited x.1).mpr (.inr (List.mem_map_of_mem hx)), (h.reaped x hx).2.2⟩
  asleep p hs ha := (h.wait p hs ha).2
  parent p hp hl := by
    obtain ⟨q, hq, -⟩ := h.child p hp (.inl hl)
    exact ⟨q, hq, (h.parent p q hq).1⟩

/-- `q` stays a zombie. -/
def Stays (k t : Table) (q : Slot) : Prop := t.Zombie q ∧ (t.proc q).pid = (k.proc q).pid

theorem Soft.stays (h : Soft k t) (hq : k.Zombie q) : k.Stays t q := ⟨(h.zombie q).mpr hq, (h.proc q).pid⟩

theorem stays_of_eq (hq : k.Zombie q) (h : t.proc q = k.proc q) : k.Stays t q := by
  unfold Stays Zombie
  rw [h]
  exact ⟨hq, rfl⟩

theorem Stays.trans {u : Table} (h : k.Stays t q) (h' : t.Stays u q) : k.Stays u q := ⟨h'.1, h'.2.trans h.2⟩

/-- A round of `wait`, in a process that has passed the test of `trap`. -/
theorem Wf.keeps_wait (h : k.Wf) (hl : k.Live p) (hact : (k.proc p).activity.InCall) :
    (∀ q, k.Zombie q → k.Stays (k.wait p) q ∨
      (k.proc q).parent = some p ∧ (k.wait p).reaped = k.reaped ++ [((k.proc q).pid, (k.proc p).pid)]) ∧
    (((k.wait p).proc p).activity = .returning → ((k.wait p).proc p).eax = -1 →
      (∀ q, (k.proc q).parent ≠ some p) ∨ (k.proc p).pid ∈ k.kills) := by
  obtain ⟨r, hpar, hz, heq⟩ | ⟨hnz, ⟨hfail, heq⟩ | ⟨-, heq⟩⟩ := wait_cases k p
  · rw [heq]
    have hproc : (k.reap p r).proc = ((k.modify r clear).ret p (k.proc r).pid).proc := rfl
    constructor
    · intro q hq
      by_cases hqr : q = r
      · rw [hqr]
        exact .inr ⟨hpar, rfl⟩
      · refine .inl (stays_of_eq hq ?_)
        have hqp : q ≠ p := hl.ne (not_live_zombie hq)
        rw [hproc, Table.ret, modify_of_ne hqp, modify_of_ne hqr]
    · intro _ heax
      rw [hproc, Table.ret, modify_self] at heax
      have hpid : ((k.proc r).pid : Int) = -1 := heax
      omega
  · rw [heq]
    refine ⟨fun q hq => .inl ((soft_ret ..).stays hq), fun _ _ => ?_⟩
    exact hfail.imp_right (h.killed p hl hact)
  · rw [heq]
    constructor
    · intro q hq
      exact .inl (stays_of_eq hq (modify_of_ne (hl.ne (not_live_zombie hq)) ..))
    · intro ha
      rw [modify_self] at ha
      cases ha

theorem stays_exit (k : Table) (hq : k.Zombie q) (hqp : q ≠ p) : k.Stays (k.exit p) q := by
  unfold Table.exit
  split
  · exact ⟨hq, rfl⟩
  · exact stays_of_eq hq (modify_of_ne hqp ..)

theorem Zombie.ne_of_state (hq : k.Zombie q) {np : Slot} {s : ProcState} (hnp : (k.proc np).state = s)
    (hs : s ≠ .zombie) : q ≠ np := fun heq => hs (hnp.symm.trans (heq ▸ hq))

theorem stays_kill (k : Table) (n : Nat) (hq : k.Zombie q) (hqp : q ≠ p) : k.Stays (k.kill p n) q := by
  unfold Table.kill
  split
  · exact stays_of_eq hq (modify_of_ne hqp ..)
  · rename_i r _
    set f : Proc → Proc := fun r =>
      { r with killed := true, state := if r.state = .sleeping then .runnable else r.state } with hf
    have hstay : k.Stays (k.modify r f) q := by
      by_cases hqr : q = r
      · subst hqr
        have hz : (k.proc q).state = .zombie := hq
        unfold Stays Zombie
        rw [modify_self, hf]
        dsimp only
        rw [hz]
        exact ⟨rfl, rfl⟩
      · exact stays_of_eq hq (modify_of_ne hqr ..)
    have hret : ((k.modify r f).ret p 0).proc q = (k.modify r f).proc q := modify_of_ne hqp ..
    exact hstay.trans (stays_of_eq hstay.1 hret)

/-- The steps of a running process but for `wait`. -/
theorem Wf.stays_act (h : k.Wf) (hp : (k.proc p).state = .running) (ht : k.act p e = some t)
    (hw : ∀ c, e ≠ .wait c) (hq : k.Zombie q) : k.Stays t q := by
  have hl : k.Live p := live_of_running hp
  have hqp : q ≠ p := hl.ne (not_live_zombie hq)
  have hone : ∀ f : Proc → Proc, k.Stays (k.modify p f) q := fun f => stays_of_eq hq (modify_of_ne hqp ..)
  unfold Table.act at ht
  split at ht
  · exact Option.some.inj ht ▸ hone _
  · obtain rfl := Option.some.inj ht
    split
    · exact stays_exit k hq hqp
    · exact hone _
  · obtain rfl := Option.some.inj ht
    split
    · exact stays_exit k hq hqp
    · exact hone _
  · obtain rfl := Option.some.inj ht
    split
    · exact stays_exit k hq hqp
    · exact hone _
  · obtain rfl := Option.some.inj ht
    exact (hone _).trans (stays_exit _ (hone _).1 hqp)
  · exact Option.some.inj ht ▸ hone _
  · obtain rfl := Option.some.inj ht
    unfold Table.allocproc
    split
    · exact hone _
    · rename_i np hfind
      have hnp : (k.proc np).state = .unused := of_decide_eq_true (find_some hfind)
      refine stays_of_eq hq ((modify_of_ne hqp ..).trans ?_)
      exact modify_of_ne (hq.ne_of_state hnp (by decide)) ..
  · obtain rfl := Option.some.inj ht
    rename_i ha
    have hqn := hq.ne_of_state (h.fork p _ false hl ha).1 (by decide)
    exact stays_of_eq hq ((modify_of_ne hqn ..).trans (modify_of_ne hqp ..))
  · obtain rfl := Option.some.inj ht
    rename_i ha
    have hqn := hq.ne_of_state (h.fork p _ false hl ha).1 (by decide)
    exact stays_of_eq hq ((modify_of_ne hqp ..).trans (modify_of_ne hqn ..))
  · obtain rfl := Option.some.inj ht
    rename_i ha
    have hqn := hq.ne_of_state (h.fork p _ true hl ha).1 (by decide)
    apply stays_of_eq hq
    rw [forkFinish_proc, modify_of_ne hqn]
    exact modify_of_ne hqp ..
  · exact Option.some.inj ht ▸ stays_exit k hq hqp
  · obtain rfl := Option.some.inj ht
    rename_i ha
    have hleaves := leave_leaves fun hpi : p = k.initproc => h.stays (hpi ▸ ha)
    have hz : (k.proc q).state = .zombie := hq
    refine ⟨?_, (hleaves.proc q).1⟩
    obtain heq | ⟨hs, -⟩ := hleaves.state q hqp
    · exact heq.trans hz
    · rw [hz] at hs
      cases hs
  · exact absurd rfl (hw _)
  · exact Option.some.inj ht ▸ stays_kill k _ hq hqp
  · exact Option.some.inj ht ▸ hone _
  · exact Option.some.inj ht ▸ hone _
  · exact Option.some.inj ht ▸ hone _
  · cases ht

theorem Keeps.of_stays (h : ∀ q, k.Zombie q → k.Stays t q) (hw : k.waits e = none) : Keeps k e t where
  zombie q hq := .inl (h q hq)
  failed c hc := by
    rw [hw] at hc
    cases hc

theorem Wf.keeps (h : k.Wf) (ht : k.step e = some t) : Keeps k e t := by
  unfold Table.step at ht
  split at ht
  · cases ht
  · split at ht
    · rename_i p
      split at ht
      · rename_i hp
        obtain rfl := Option.some.inj ht
        have hsoft := soft_dispatch hp
        obtain ⟨ha, heq⟩ | ⟨ha, heq⟩ := schedule_cases k p
        · rw [heq]
          have hl := (hsoft.live p).mpr (live_of_runnable hp)
          have hcall : ((k.modify p Table.dispatch).proc p).activity.InCall := by
            rw [modify_self]
            unfold Table.dispatch
            dsimp only
            rw [ha]
            exact trivial
          obtain ⟨hz, hfail⟩ := (h.dispatch hp).keeps_wait hl hcall
          have hwaits : k.waits (.schedule p) = some p := if_pos ha
          constructor
          · intro q hq
            obtain ⟨hq', hpid⟩ := hsoft.stays hq
            obtain hst | ⟨hpar, hreap⟩ := hz q hq'
            · exact .inl ⟨hst.1, hst.2.trans hpid⟩
            · rw [(hsoft.proc q).parent] at hpar
              rw [(hsoft.proc q).pid, (hsoft.proc p).pid] at hreap
              exact .inr ⟨p, hwaits, hpar, hreap⟩
          · intro c hc hact heax
            obtain rfl := Option.some.inj (hwaits.symm.trans hc)
            refine (hfail hact heax).imp (fun hno q => ?_) fun hk => ?_
            · rw [← (hsoft.proc q).parent]
              exact hno q
            · rw [← (hsoft.proc p).pid]
              exact hk
        · rw [heq]
          exact .of_stays (fun q hq => hsoft.stays hq) (if_neg ha)
      · cases ht
    · obtain rfl := Option.some.inj ht
      exact .of_stays (fun q hq => (Soft.wakeup1 ..).stays hq) rfl
    · obtain ⟨p, hactor, ht⟩ := Option.bind_eq_some_iff.mp ht
      split at ht
      · rename_i hne _ hp
        by_cases hw : ∃ c, e = .wait c
        · obtain ⟨c, rfl⟩ := hw
          obtain rfl := Option.some.inj hactor
          have ha : (k.proc c).activity = .kernel ∧ k.wait c = t := by
            cases hact : (k.proc c).activity <;> simp only [Table.act, hact, Option.some.injEq, reduceCtorEq] at ht
            exact ⟨rfl, ht⟩
          obtain ⟨hact, rfl⟩ := ha
          have hcall : (k.proc c).activity.InCall := by
            rw [hact]
            exact trivial
          obtain ⟨hz, hfail⟩ := h.keeps_wait (live_of_running hp) hcall
          constructor
          · exact fun q hq => (hz q hq).imp_right fun hr => ⟨c, rfl, hr⟩
          · intro d hd
            obtain rfl := Option.some.inj hd
            exact hfail
        · refine .of_stays (fun q hq => h.stays_act hp ht (fun c hc => hw ⟨c, hc⟩) hq) ?_
          cases e with
          | wait c => exact absurd ⟨c, rfl⟩ hw
          | schedule c => cases hactor
          | _ => rfl
      · cases ht

/-- Whatever processes do, until init exits. -/
theorem no_child_lost (h : Run.exec step boot es = some k) : k.Kept ∧ ∀ e t, k.step e = some t → Keeps k e t := by
  have hw : k.Wf := Run.invariant (fun _ _ _ hw ht => Wf.step hw ht) wf_boot h
  exact ⟨hw.kept, fun e t ht => hw.keeps ht⟩

/-- Init sleeps in `wait`; its child has a child and exits, and both are freed by init. -/
def orphanRun : List Event :=
  let init : Slot := ⟨0, Nat.le_add_left 1 63⟩
  let child : Slot := ⟨1, Nat.le_add_left 2 62⟩
  let orphan : Slot := ⟨2, Nat.le_add_left 3 61⟩
  [.schedule init, .trap init, .fork init, .forkCopy init, .forkFinish init, .back init, .trap init, .wait init,
    .schedule child, .trap child, .fork child, .forkCopy child, .forkFinish child, .back child, .trap child,
    .exit child, .leave child, .schedule init, .back init, .trap init, .wait init,
    .schedule orphan, .trap orphan, .exit orphan, .leave orphan, .schedule init]

theorem no_child_lost_orphan : ∃ k, Run.exec step boot orphanRun = some k ∧
    k.exited = [2, 3] ∧ k.reaped = [(2, 1), (3, 1)] ∧ k.Kept := by
  have hrun : (Run.exec step boot orphanRun).map (fun k => (k.exited, k.reaped)) =
      some ([2, 3], [(2, 1), (3, 1)]) := by
    decide +kernel
  obtain ⟨k, hk, hval⟩ := Option.map_eq_some_iff.mp hrun
  obtain ⟨hexited, hreaped⟩ := Prod.mk.inj hval
  exact ⟨k, hk, hexited, hreaped, (no_child_lost hk).1⟩

end Table

end Xv6.Family
