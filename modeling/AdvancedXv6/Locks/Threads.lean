import AdvancedXv6.Locks.Spin

/-! The threads of the kernel: which one runs on each CPU, where each of them stands in its code, and
what the table of processes says of it. -/

namespace Xv6.Locks
open Function Ownership

/-- The scheduler of a CPU, or a process. -/
inductive Thread (C : Type)
  | sched (c : C)
  | proc (q : Slot)
  deriving DecidableEq

def Thread.isProc {C : Type} : Thread C → Bool
  | .sched _ => false
  | .proc _ => true

/-- What the table says of a process. -/
def Proc.row (p : Proc) : Proc := { p with code := [] }

/-- The state of a process that runs, given what it has set it to. -/
def Proc.Shows (p : Proc) : Option Parked → Prop
  | none => p.state = .running
  | some .standing => p.state = .runnable
  | some (.asleep ch) => p.state = .sleeping ∧ p.chan = some ch
  | some .zombie => p.state = .zombie

theorem Proc.shows_congr {p p' : Proc} {x : Option Parked} (hstate : p.state = p'.state) (hchan : p.chan = p'.chan) :
    p.Shows x ↔ p'.Shows x := by
  rcases x with _ | _ | _ | _ <;> simp only [Proc.Shows, hstate, hchan]

namespace Sys
variable {C : Type}

/-- The thread that runs on `c`. -/
def cur (s : Sys C) (c : C) : Thread C :=
  match (s.cpu c).proc with
  | some q => .proc q
  | none => .sched c

/-- What a thread has still to do. -/
def todo (s : Sys C) : Thread C → Code
  | .sched c => (s.cpu c).sched
  | .proc q => (s.proc q).code

/-- The thread runs, or will run again. -/
def Live (s : Sys C) : Thread C → Prop
  | .sched _ => True
  | .proc q => (s.proc q).state = .sleeping ∨ (s.proc q).state = .runnable ∨ ∃ c, (s.cpu c).proc = some q

/-- Every thread stands at a point of its code where the locks are as the code counts on, and the table of
processes says what it does. -/
structure Threads (s : Sys C) (a : Thread C → Flow) : Prop where
  flows : ∀ k, s.Live k → Flows (s.todo k) (a k)
  ok : ∀ k, (a k).Ok
  kind : ∀ k, (a k).proc = k.isProc
  one : ∀ c d q, (s.cpu c).proc = some q → (s.cpu d).proc = some q → c = d
  off : ∀ k, s.Live k → (∀ c, s.cur c ≠ k) → (a k).parked = none ∧ (a k).Only {.ptable}
  shows : ∀ c q, (s.cpu c).proc = some q → (s.proc q).Shows (a (.proc q)).parked
  running : ∀ q, (s.proc q).state = .running → ∃ c, (s.cpu c).proc = some q
  kid : ∀ k r, r ∈ (a k).kids → (s.proc r).state = .embryo
  kids : ∀ k k' r, r ∈ (a k).kids → r ∈ (a k').kids → k = k'
  dead : ∀ q, ¬s.Live (.proc q) → (a (.proc q)).owns = ∅ ∧ (a (.proc q)).kids = ∅

/-- The thread on `c` goes on with `code`, and nothing else changes in the processes. -/
structure Goes (s : Sys C) (c : C) (code : Code) (t : Sys C) : Prop where
  proc : ∀ d, (t.cpu d).proc = (s.cpu d).proc
  todo : t.todo (s.cur c) = code
  others : ∀ k, k ≠ s.cur c → t.todo k = s.todo k
  same : ∀ q, (t.proc q).row = (s.proc q).row
  nextpid : t.nextpid = s.nextpid
  initproc : t.initproc = s.initproc

variable {s t : Sys C} {a : Thread C → Flow} {c d : C} {q : Slot} {code : Code} {b : Flow} {k : Thread C}

theorem cur_proc (h : (s.cpu c).proc = some q) : s.cur c = .proc q := by
  rw [cur, h]

theorem cur_sched (h : (s.cpu c).proc = none) : s.cur c = .sched c := by
  rw [cur, h]

theorem cur_eq_proc : s.cur c = .proc q ↔ (s.cpu c).proc = some q := by
  unfold cur
  cases h : (s.cpu c).proc with
  | none => simp
  | some r => simp

theorem code_eq : s.code c = s.todo (s.cur c) := by
  unfold code cur
  cases (s.cpu c).proc with
  | none => rfl
  | some r => rfl

theorem live_cur : s.Live (s.cur c) := by
  unfold cur
  cases h : (s.cpu c).proc with
  | none => exact trivial
  | some r => exact .inr (.inr ⟨c, h⟩)

theorem Threads.cur_inj (h : Threads s a) (hcd : s.cur c = s.cur d) : c = d := by
  cases hc : (s.cpu c).proc with
  | some q =>
    rw [cur_proc hc] at hcd
    exact h.one c d q hc (cur_eq_proc.mp hcd.symm)
  | none =>
    rw [cur_sched hc] at hcd
    cases hd : (s.cpu d).proc with
    | some q => cases hcd.trans (cur_proc hd)
    | none => exact Thread.sched.inj (hcd.trans (cur_sched hd))

variable [DecidableEq C]

/-- The flow of the thread on `c` changes. -/
theorem Threads.update_cur (h : Threads s a) (d : C) :
    update a (s.cur c) b (s.cur d) = update (fun d => a (s.cur d)) c b d := by
  by_cases hd : d = c
  · subst hd
    rw [update_self, update_self]
  · rw [update_of_ne hd, update_of_ne fun heq => hd (h.cur_inj heq)]

/-- The thread `k'` comes to have no more of what `f` gives. -/
theorem update_subset {β : Type} (f : Flow → Finset β) {k' : Thread C} (hb : f b ⊆ f (a k')) (k : Thread C) :
    f (update a k' b k) ⊆ f (a k) := by
  by_cases hk : k = k'
  · subst hk
    rwa [update_self]
  · rw [update_of_ne hk]

/-! ### Going on -/

theorem goes_goto (s : Sys C) (c : C) (code : Code) : Goes s c code (s.goto c code) := by
  unfold goto
  cases h : (s.cpu c).proc with
  | none =>
    have hcur := cur_sched h
    refine ⟨fun d => ?_, ?_, fun k hk => ?_, fun q => rfl, rfl, rfl⟩
    · by_cases hd : d = c
      · subst hd
        simp [setCpu]
      · simp [setCpu, hd]
    · simp [hcur, todo, setCpu]
    · cases k with
      | sched d =>
        have hd : d ≠ c := fun hd => hk (hd ▸ hcur.symm)
        simp [todo, setCpu, hd]
      | proc q => rfl
  | some q =>
    have hcur := cur_proc h
    refine ⟨fun d => rfl, ?_, fun k hk => ?_, fun r => ?_, rfl, rfl⟩
    · simp [hcur, todo, setProc]
    · cases k with
      | sched d => rfl
      | proc r =>
        have hr : r ≠ q := fun hr => hk (hr ▸ hcur.symm)
        simp [todo, setProc, hr]
    · by_cases hr : r = q
      · subst hr
        simp only [setProc, update_self]
        rfl
      · simp [setProc, hr]

section
omit [DecidableEq C]

theorem Goes.cur (h : Goes s c code t) (d : C) : t.cur d = s.cur d := by
  unfold Sys.cur
  rw [h.proc d]

theorem Goes.state (h : Goes s c code t) (q : Slot) : (t.proc q).state = (s.proc q).state := by
  have := congrArg Proc.state (h.same q)
  exact this

theorem Goes.chan (h : Goes s c code t) (q : Slot) : (t.proc q).chan = (s.proc q).chan := by
  have := congrArg Proc.chan (h.same q)
  exact this

theorem Goes.pid (h : Goes s c code t) (q : Slot) : (t.proc q).pid = (s.proc q).pid := by
  have := congrArg Proc.pid (h.same q)
  exact this

theorem Goes.setLock (h : Goes s c code t) (l : Lock) (x : Spinlock C) : Goes s c code (t.setLock l x) :=
  ⟨h.proc, h.todo, h.others, h.same, h.nextpid, h.initproc⟩

theorem Goes.setSleep (h : Goes s c code t) (i : Nat) (x : Sleeplock) : Goes s c code (t.setSleep i x) :=
  ⟨h.proc, h.todo, h.others, h.same, h.nextpid, h.initproc⟩

end

/-- The registers of a CPU change. -/
theorem Goes.setCpu (h : Goes s c code t) (x : Cpu) (hproc : x.proc = (t.cpu c).proc)
    (hsched : x.sched = (t.cpu c).sched) : Goes s c code (t.setCpu c x) := by
  have hcpu (d : C) : ((t.setCpu c x).cpu d).proc = (t.cpu d).proc ∧ ((t.setCpu c x).cpu d).sched = (t.cpu d).sched := by
    unfold Sys.setCpu
    by_cases hd : d = c
    · subst hd
      simp [hproc, hsched]
    · simp [hd]
  have htodo (k : Thread C) : (t.setCpu c x).todo k = t.todo k := by
    cases k with
    | sched d => exact (hcpu d).2
    | proc q => rfl
  exact ⟨fun d => (hcpu d).1.trans (h.proc d), (htodo _).trans h.todo, fun k hk => (htodo k).trans (h.others k hk),
    h.same, h.nextpid, h.initproc⟩

/-! ### Steps that keep each CPU with its thread -/

/-- What a step of `c` can do to the process `q`. -/
inductive Fate (s t : Sys C) (a a' : Thread C → Flow) (c : C) (q : Slot) : Prop
  | same (hstate : (t.proc q).state = (s.proc q).state) (hchan : (t.proc q).chan = (s.proc q).chan)
      (hcode : (t.proc q).code = (s.proc q).code) (ha : a' (.proc q) = a (.proc q))
  /-- it is woken -/
  | roused (hs : (s.proc q).state = .sleeping) (ht : (t.proc q).state = .runnable) (hoff : ∀ d, (s.cpu d).proc ≠ some q)
      (hcode : (t.proc q).code = (s.proc q).code) (ha : a' (.proc q) = a (.proc q))
  /-- it makes the step -/
  | self (hcur : s.cur c = .proc q) (ht : (t.proc q).Shows (a' (.proc q)).parked)
  /-- it is a child that can run for the first time -/
  | born (hs : ¬s.Live (.proc q)) (ht : (t.proc q).state = .runnable) (hflows : Flows (t.proc q).code (a' (.proc q)))
      (hok : (a' (.proc q)).Ok) (hproc : (a' (.proc q)).proc = true) (hparked : (a' (.proc q)).parked = none)
      (honly : (a' (.proc q)).Only {.ptable})
  /-- the slot is reserved, or given back -/
  | unborn (hs : ¬s.Live (.proc q)) (ht : (t.proc q).state = .unused ∨ (t.proc q).state = .embryo)
      (ha : a' (.proc q) = a (.proc q))

variable {a' : Thread C → Flow}

omit [DecidableEq C] in
theorem live_congr (hcpu : ∀ d, (t.cpu d).proc = (s.cpu d).proc) (hstate : (t.proc q).state = (s.proc q).state) :
    t.Live (.proc q) ↔ s.Live (.proc q) := by
  simp only [Live, hcpu, hstate]

omit [DecidableEq C] in
theorem not_live (hcpu : ∀ d, (t.cpu d).proc = (s.cpu d).proc) (hidle : ∀ d, (s.cpu d).proc ≠ some q)
    (ht : (t.proc q).state = .unused ∨ (t.proc q).state = .embryo) : ¬t.Live (.proc q) := by
  simp only [Live, hcpu, not_or, not_exists]
  rcases ht with ht | ht <;> simp [ht, hidle]

theorem Threads.change (h : Threads s a) (hcpu : ∀ d, (t.cpu d).proc = (s.cpu d).proc)
    (hsched : ∀ d, .sched d ≠ s.cur c → (t.cpu d).sched = (s.cpu d).sched ∧ a' (.sched d) = a (.sched d))
    (hflows : Flows (t.todo (s.cur c)) (a' (s.cur c))) (hok : (a' (s.cur c)).Ok)
    (hkind : (a' (s.cur c)).proc = (s.cur c).isProc) (hfate : ∀ q, Fate s t a a' c q)
    (hkid : ∀ k r, r ∈ (a' k).kids → (t.proc r).state = .embryo)
    (hkids : ∀ k k' r, r ∈ (a' k).kids → r ∈ (a' k').kids → k = k') : Threads t a' := by
  have hcur (d : C) : t.cur d = s.cur d := by
    unfold cur
    rw [hcpu d]
  have hidle {q : Slot} (hl : ¬s.Live (.proc q)) (d : C) : (s.cpu d).proc ≠ some q := fun hd => hl (.inr (.inr ⟨d, hd⟩))
  refine ⟨?_, ?_, ?_, ?_, ?_, ?_, ?_, hkid, hkids, ?_⟩
  · intro k hk
    by_cases hkc : k = s.cur c
    · rwa [hkc]
    cases k with
    | sched d =>
      obtain ⟨htodo, ha⟩ := hsched d hkc
      rw [ha, todo, htodo]
      exact h.flows (.sched d) trivial
    | proc q =>
      cases hfate q with
      | same hstate hchan hcode ha =>
        rw [ha, todo, hcode]
        exact h.flows (.proc q) ((live_congr hcpu hstate).mp hk)
      | roused hs ht hoff hcode ha =>
        rw [ha, todo, hcode]
        exact h.flows (.proc q) (.inl hs)
      | self hq => exact absurd hq.symm hkc
      | born hs ht hflows => exact hflows
      | unborn hs ht => exact absurd hk (not_live hcpu (hidle hs) ht)
  · intro k
    by_cases hkc : k = s.cur c
    · rwa [hkc]
    cases k with
    | sched d =>
      rw [(hsched d hkc).2]
      exact h.ok _
    | proc q =>
      cases hfate q with
      | same _ _ _ ha | roused _ _ _ _ ha | unborn _ _ ha =>
        rw [ha]
        exact h.ok _
      | self hq => exact absurd hq.symm hkc
      | born _ _ _ hok => exact hok
  · intro k
    by_cases hkc : k = s.cur c
    · rwa [hkc]
    cases k with
    | sched d =>
      rw [(hsched d hkc).2]
      exact h.kind _
    | proc q =>
      cases hfate q with
      | same _ _ _ ha | roused _ _ _ _ ha | unborn _ _ ha =>
        rw [ha]
        exact h.kind _
      | self hq => exact absurd hq.symm hkc
      | born _ _ _ _ hproc => exact hproc
  · intro d e q hd he
    rw [hcpu] at hd he
    exact h.one d e q hd he
  · intro k hk hoff
    have hoff (d : C) : s.cur d ≠ k := fun heq => hoff d ((hcur d).trans heq)
    cases k with
    | sched d =>
      rw [(hsched d (hoff c).symm).2]
      exact h.off _ trivial hoff
    | proc q =>
      cases hfate q with
      | same hstate _ _ ha =>
        rw [ha]
        exact h.off _ ((live_congr hcpu hstate).mp hk) hoff
      | roused hs _ _ _ ha =>
        rw [ha]
        exact h.off _ (.inl hs) hoff
      | self hq => exact absurd hq (hoff c)
      | born _ _ _ _ _ hparked honly => exact ⟨hparked, honly⟩
      | unborn hs ht => exact absurd hk (not_live hcpu (hidle hs) ht)
  · intro d q hd
    rw [hcpu] at hd
    cases hfate q with
    | same hstate hchan _ ha =>
      rw [ha, Proc.shows_congr hstate hchan]
      exact h.shows d q hd
    | roused _ _ hoff => exact absurd hd (hoff d)
    | self _ ht => exact ht
    | born hs | unborn hs => exact absurd hd (hidle hs d)
  · intro q hq
    simp only [hcpu]
    cases hfate q with
    | same hstate => exact h.running q (hstate.symm.trans hq)
    | roused _ ht | born _ ht => exact ProcState.noConfusion (ht.symm.trans hq)
    | self hcur => exact ⟨c, cur_eq_proc.mp hcur⟩
    | unborn _ ht => rcases ht with ht | ht <;> exact ProcState.noConfusion (ht.symm.trans hq)
  · intro q hq
    cases hfate q with
    | same hstate _ _ ha =>
      rw [ha]
      exact h.dead q fun hl => hq ((live_congr hcpu hstate).mpr hl)
    | roused _ ht | born _ ht => exact absurd (.inr (.inl ht)) hq
    | self hcur => exact absurd (.inr (.inr ⟨c, (hcpu c).trans (cur_eq_proc.mp hcur)⟩)) hq
    | unborn hs _ ha =>
      rw [ha]
      exact h.dead q hs

/-- Nothing changes in the processes but what the thread on `c` has still to do. -/
theorem Threads.goes (h : Threads s a) (hg : Goes s c code t) (hflows : Flows code b) (hok : b.Ok)
    (hproc : b.proc = (a (s.cur c)).proc) (hparked : b.parked = (a (s.cur c)).parked)
    (hkids : b.kids ⊆ (a (s.cur c)).kids) : Threads t (update a (s.cur c) b) := by
  have hmem (k : Thread C) := update_subset (a := a) Flow.kids hkids k
  apply h.change hg.proc
  · intro d hd
    exact ⟨hg.others _ hd, update_of_ne hd ..⟩
  · rwa [update_self, hg.todo]
  · rwa [update_self]
  · rw [update_self, hproc, h.kind]
  · intro q
    by_cases hq : .proc q = s.cur c
    · refine .self hq.symm ?_
      rw [hq, update_self, hparked, Proc.shows_congr (hg.state q) (hg.chan q), ← hq]
      exact h.shows c q (cur_eq_proc.mp hq.symm)
    · exact .same (hg.state q) (hg.chan q) (hg.others _ hq) (update_of_ne hq ..)
  · intro k r hr
    rw [hg.state]
    exact h.kid k r (hmem k hr)
  · exact fun k k' r hr hr' => h.kids k k' r (hmem k hr) (hmem k' hr')

end Sys

end Xv6.Locks
