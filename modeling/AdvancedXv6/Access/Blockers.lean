import AdvancedXv6.Access.Block
import Mathlib.Logic.Relation

/-! Who has blocked a system call: the runs of the system with a record of the calls of `block` that
have not been lifted, and of who forked whom. -/

namespace Xv6.Block
open Function

/-- A call of `block` that blocks the system call `s`. -/
def Kernel.Blocks (k : Kernel) (e : Nat × Call) (s : Nat) : Prop :=
  e.2 = .block (some (s : Int)) ∧ ¬k.Refused e.1 23 ∧ s < maxSyscalls ∧ s ≠ 1 ∧ s ≠ 2

instance (k : Kernel) (e : Nat × Call) (s : Nat) : Decidable (k.Blocks e s) :=
  inferInstanceAs (Decidable (_ ∧ _))

variable {k t : Kernel} {p i j s : Nat} {c : Call} {e : Nat × Call}

/-- What a step does to the entry for `s`. -/
inductive Entry (k t : Kernel) (e : Nat × Call) (s : Nat) : Prop
  | same (hno : ¬k.Blocks e s) (hb : t.blockedSyscalls s = k.blockedSyscalls s)
      (hw : t.whichPidBlockedIt s = k.whichPidBlockedIt s)
  | lifted (hno : ¬k.Blocks e s) (hb : t.blockedSyscalls s = false) (hw : t.whichPidBlockedIt s = 0)
  | blocked (h : k.Blocks e s) (hb : t.blockedSyscalls s = true)
      (hw : t.whichPidBlockedIt s = if k.whichPidBlockedIt s = 0 ∨
        (k.proc e.1).pid < k.whichPidBlockedIt s then (k.proc e.1).pid else k.whichPidBlockedIt s)

theorem not_blocks_of_call (hc : ∀ id, c ≠ .block (some id)) : ¬k.Blocks (p, c) s :=
  fun h => hc s h.1

theorem entry_block {id : Int} (hr : ¬k.Refused p 23) :
    Entry k (k.blockDummy p id) (p, .block (some id)) s := by
  rw [Kernel.blockDummy]
  by_cases hbad : id < 0 ∨ maxSyscalls ≤ id ∨ id = 1 ∨ id = 2
  · rw [if_pos hbad]
    refine .same (fun h => ?_) rfl rfl
    obtain ⟨hid, -, hlt, h1, h2⟩ := h
    obtain rfl : id = s := Option.some.inj (Call.block.inj hid)
    omega
  · rw [if_neg hbad]
    by_cases hs : s = id.toNat
    · subst hs
      refine .blocked ⟨?_, hr, by omega, by omega, by omega⟩ (update_self _ _ _) ?_
      · rw [Int.toNat_of_nonneg (by omega)]
      · dsimp only
        rw [update_self]
        by_cases h0 : k.whichPidBlockedIt id.toNat = 0
        · rw [if_pos h0, if_neg (Int.lt_irrefl _), if_pos (Or.inl h0)]
        · rw [if_neg h0]
          by_cases hlt : (k.proc p).pid < k.whichPidBlockedIt id.toNat
          · rw [if_pos hlt, if_pos (Or.inr hlt)]
          · rw [if_neg hlt, if_neg (by tauto)]
    · refine .same (fun h => hs ?_) (update_of_ne hs _ _) (update_of_ne hs _ _)
      obtain rfl : id = s := Option.some.inj (Call.block.inj h.1)
      exact (Int.toNat_natCast s).symm

theorem entry_perform (hr : ¬k.Refused p c.num) : Entry k (k.perform p c) (p, c) s := by
  have same (hc : ∀ id, c ≠ .block (some id))
      (ht : (k.perform p c).blockedSyscalls = k.blockedSyscalls ∧
        (k.perform p c).whichPidBlockedIt = k.whichPidBlockedIt) : Entry k (k.perform p c) (p, c) s :=
    .same (not_blocks_of_call hc) (congrFun ht.1 s) (congrFun ht.2 s)
  cases c with
  | fork ok =>
    refine same (by simp) ?_
    show (k.fork p ok).blockedSyscalls = _ ∧ (k.fork p ok).whichPidBlockedIt = _
    rcases Kernel.fork_cases k p ok with hk | ⟨_, _, _, _, _, hk⟩ <;> rw [hk] <;> exact ⟨rfl, rfl⟩
  | exit => exact same (by simp) ⟨rfl, rfl⟩
  | exec => exact same (by simp) ⟨rfl, rfl⟩
  | wait =>
    refine same (by simp) ?_
    show (k.wait p).blockedSyscalls = _ ∧ (k.wait p).whichPidBlockedIt = _
    rw [Kernel.wait]
    split <;> exact ⟨rfl, rfl⟩
  | kill pid =>
    cases pid with
    | none => exact same (by simp) ⟨rfl, rfl⟩
    | some pid =>
      rcases (Kernel.kill_tables k pid).2.2 s with ⟨-, hw, hb⟩ | ⟨-, ⟨hw, hb⟩ | ⟨hw, hb⟩⟩
      · exact .same (not_blocks_of_call (by simp)) hb hw
      · exact .lifted (not_blocks_of_call (by simp)) hb hw
      · exact .same (not_blocks_of_call (by simp)) hb hw
  | block id =>
    cases id with
    | none => exact same (by simp) ⟨rfl, rfl⟩
    | some id => exact entry_block hr
  | unblock id =>
    cases id with
    | none => exact same (by simp) ⟨rfl, rfl⟩
    | some id =>
      rcases (Kernel.unblock_tables (k := k) (p := p) id).2.2.2 s with ⟨hw, hb⟩ | ⟨-, hw, hb⟩
      · exact .same (not_blocks_of_call (by simp)) hb hw
      · exact .lifted (not_blocks_of_call (by simp)) hb hw

theorem entry_step (h : k.step e = some t) (s : Nat) : Entry k t e s := by
  obtain ⟨p, c⟩ := e
  obtain ⟨-, -, ⟨hr, rfl⟩ | ⟨hr, rfl⟩⟩ := Kernel.step_cases h
  · refine .same (fun hb => ?_) rfl rfl
    obtain ⟨rfl, hno, -⟩ := hb
    exact hno hr
  · by_cases hc : c = .exec
    · subst hc
      obtain ⟨-, -, hw, hb⟩ := Kernel.marked_tables (k := k) (p := p) (c := .exec)
      exact .same (not_blocks_of_call (by simp)) (congrFun hb s) (congrFun hw s)
    · have hm : k.marked p c = k := by
        rw [Kernel.marked, if_neg]
        rintro ⟨-, hnum⟩
        cases c <;> first | contradiction | cases hnum
      rw [hm]
      exact entry_perform hr

structure Record where
  kernel : Kernel
  /-- the pids of the processes that have blocked the system call since it was allowed last -/
  blockers : Nat → List Int
  /-- the pid of the process that forked the one with this pid -/
  forker : Int → Int

namespace Record

def step (r : Record) (e : Nat × Call) : Option Record :=
  (r.kernel.step e).map fun t =>
    let pid := (r.kernel.proc e.1).pid
    { kernel := t
      blockers := fun s =>
        if t.blockedSyscalls s then
          if r.kernel.Blocks e s then pid :: r.blockers s else r.blockers s
        else []
      forker := fun n => if r.kernel.nextpid ≤ n ∧ n < t.nextpid then pid else r.forker n }

def boot : Record := ⟨Kernel.boot, fun _ => [], fun _ => 0⟩

/-- The process with pid `n` descends from the one with pid `m`. -/
def Ancestor (r : Record) (m n : Int) : Prop := Relation.TransGen (fun x y => r.forker y = x) m n

/-- The pid whose position in the order of creation decides on refusals for process `i`. -/
def gauge (r : Record) (i : Nat) : Int :=
  if (r.kernel.proc i).toBeBlocked = 1 then (r.kernel.proc i).pid else r.kernel.parentPid i

/-- The entry for `s` is the oldest of the processes that have blocked it. -/
structure Oldest (k : Kernel) (blockers : Nat → List Int) (s : Nat) : Prop where
  allowed : k.blockedSyscalls s = false → k.whichPidBlockedIt s = 0 ∧ blockers s = []
  blocked : k.blockedSyscalls s = true → k.whichPidBlockedIt s ∈ blockers s ∧
    ∀ w ∈ blockers s, k.whichPidBlockedIt s ≤ w

/-- The flag is set at most once. -/
def Flags (k : Kernel) : Prop :=
  ∀ i, (k.proc i).state ≠ .unused → (k.proc i).toBeBlocked = 0 ∨ (k.proc i).toBeBlocked = 1

variable {r r' : Record}

theorem Oldest.step (hwf : r.kernel.Wf) (h : Oldest r.kernel r.blockers s) (hs : r.step e = some r') :
    Oldest r'.kernel r'.blockers s := by
  obtain ⟨t, ht, rfl⟩ := Option.map_eq_some_iff.mp hs
  cases entry_step ht s with
  | same hno hb hw =>
    refine ⟨fun hf => ?_, fun ht => ?_⟩
    · dsimp only at hf ⊢
      rw [if_neg (by rw [hf]; simp), hw]
      exact ⟨(h.allowed (hb ▸ hf)).1, rfl⟩
    · dsimp only at ht ⊢
      rw [if_pos ht, if_neg hno, hw]
      exact h.blocked (hb ▸ ht)
  | lifted hno hb hw =>
    refine ⟨fun _ => ?_, fun ht => ?_⟩
    · dsimp only
      rw [if_neg (by rw [hb]; simp)]
      exact ⟨hw, rfl⟩
    · exact absurd (hb.symm.trans ht) (by simp)
  | blocked hbl hb hw =>
    refine ⟨fun hf => absurd (hb.symm.trans hf) (by simp), fun _ => ?_⟩
    dsimp only
    rw [if_pos hb, if_pos hbl, hw]
    cases hold : r.kernel.blockedSyscalls s with
    | false =>
      obtain ⟨h0, hnil⟩ := h.allowed hold
      rw [if_pos (Or.inl h0), hnil]
      exact ⟨List.mem_cons_self, fun w hw => Int.le_of_eq (List.mem_singleton.mp hw).symm⟩
    | true =>
      obtain ⟨hmem, hmin⟩ := h.blocked hold
      have hpos := (hwf.which s).2 hold
      by_cases hlt : (r.kernel.proc e.1).pid < r.kernel.whichPidBlockedIt s
      · rw [if_pos (Or.inr hlt)]
        refine ⟨List.mem_cons_self, fun w hw => ?_⟩
        rcases List.mem_cons.mp hw with rfl | hw
        · exact Int.le_refl _
        · have := hmin w hw
          omega
      · rw [if_neg (by omega)]
        refine ⟨List.mem_cons_of_mem _ hmem, fun w hw => ?_⟩
        rcases List.mem_cons.mp hw with rfl | hw
        · omega
        · exact hmin w hw

theorem Flags.same (h : Flags k) (hproc : ∀ i, (t.proc i).state ≠ .unused → (k.proc i).state ≠ .unused ∧
      ((t.proc i).toBeBlocked = (k.proc i).toBeBlocked ∨ (t.proc i).toBeBlocked = 1)) : Flags t := by
  intro i hi
  obtain ⟨hst, htbb | htbb⟩ := hproc i hi
  · rw [htbb]
    exact h i hst
  · exact .inr htbb

theorem Flags.perform (h : Flags k) (hp : (k.proc p).state = .live) : Flags (k.perform p c) := by
  cases c with
  | fork ok =>
    show Flags (k.fork p ok)
    rcases Kernel.fork_cases k p ok with hk | ⟨i, r, -, -, hr, hk⟩
    · rw [hk]
      exact h
    · rw [hk]
      intro x hx
      dsimp only at hx ⊢
      by_cases hxi : x = i
      · subst hxi
        rw [update_self] at hx ⊢
        exact .inl (hr.resolve_left hx).2.2
      · rw [update_of_ne hxi] at hx ⊢
        exact h x hx
  | exit =>
    refine h.same fun i hi => ?_
    simp only [Kernel.perform, Kernel.exit] at hi ⊢
    by_cases hip : i = p
    · subst hip
      rw [hp]
      refine ⟨by simp, .inl ?_⟩
      split <;> split <;> rfl
    · rw [if_neg hip] at hi ⊢
      refine ⟨?_, .inl ?_⟩
      · split at hi <;> exact hi
      · split <;> rfl
  | exec => exact h
  | wait =>
    refine h.same fun i hi => ?_
    simp only [Kernel.perform, Kernel.wait] at hi ⊢
    split at hi
    · exact ⟨hi, .inl rfl⟩
    · rename_i j _
      by_cases hij : i = j
      · subst hij
        rw [Kernel.setProc_self] at hi
        exact absurd rfl hi
      · rw [Kernel.setProc_of_ne hij] at hi ⊢
        exact ⟨hi, .inl rfl⟩
  | kill pid =>
    cases pid with
    | none => exact h
    | some pid =>
      refine h.same fun i hi => ?_
      obtain ⟨hst, -, -, htbb⟩ := Kernel.kill_proc k pid i
      exact ⟨hst ▸ hi, .inl htbb⟩
  | block id =>
    cases id with
    | none => exact h
    | some id =>
      have hproc := (Kernel.block_tables (k := k) (p := p) id).1
      exact h.same fun i hi => ⟨congrArg (fun f => (f i).state) hproc ▸ hi, .inl (by
        rw [Kernel.perform, hproc])⟩
  | unblock id =>
    cases id with
    | none => exact h
    | some id =>
      have hproc := (Kernel.unblock_tables (k := k) (p := p) id).1
      exact h.same fun i hi => ⟨congrArg (fun f => (f i).state) hproc ▸ hi, .inl (by
        rw [Kernel.perform, hproc])⟩

theorem Flags.step (h : Flags k) (hs : k.step e = some t) : Flags t := by
  obtain ⟨p, c⟩ := e
  obtain ⟨hp, -, ⟨-, rfl⟩ | ⟨-, rfl⟩⟩ := Kernel.step_cases hs
  · exact h
  · have hm (i : Nat) := Kernel.marked_proc (k := k) (p := p) (c := c) i
    refine Flags.perform (h.same fun i hi => ?_) ((hm p).1.trans hp)
    exact ⟨(hm i).1 ▸ hi, (hm i).2.2.2.imp_right And.right⟩

theorem run_record {es : List (Nat × Call)} (h : Run.exec step boot es = some r) :
    r.kernel.Wf ∧ Flags r.kernel ∧ ∀ s, Oldest r.kernel r.blockers s := by
  refine Run.invariant (I := fun r => r.kernel.Wf ∧ Flags r.kernel ∧ ∀ s, Oldest r.kernel r.blockers s)
    (fun r e r' hI hs => ?_) ⟨Kernel.wf_boot, fun i _ => ?_, fun s => ⟨fun _ => ⟨rfl, rfl⟩, by rintro ⟨⟩⟩⟩ h
  · obtain ⟨hwf, hf, ho⟩ := hI
    obtain ⟨t, ht, rfl⟩ := Option.map_eq_some_iff.mp hs
    exact ⟨hwf.step ht, hf.step ht, fun s => (ho s).step hwf hs⟩
  · simp only [boot, Kernel.boot]
    split <;> exact .inl rfl

/-- A system call is refused to a process if and only if one that was created before it (before its
parent, if it has not called `exec` yet) has blocked it, and nobody has lifted that. -/
theorem refused_iff {es : List (Nat × Call)} {q : Nat} (h : Run.exec step boot es = some r)
    (hq : (r.kernel.proc q).state = .live) : r.kernel.Refused q s ↔
      2 < (r.kernel.proc q).pid ∧ ∃ w ∈ r.blockers s, w < r.gauge q := by
  obtain ⟨hwf, hf, ho⟩ := run_record h
  have hg : r.kernel.Refused q s ↔ 2 < (r.kernel.proc q).pid ∧
      r.kernel.blockedSyscalls s = true ∧ r.kernel.whichPidBlockedIt s < r.gauge q := by
    rw [Kernel.Refused, gauge, and_left_comm]
    rcases hf q (by rw [hq]; simp) with htbb | htbb <;> simp [htbb]
  rw [hg]
  refine and_congr_right fun _ => ?_
  constructor
  · rintro ⟨hb, hlt⟩
    exact ⟨_, ((ho s).blocked hb).1, hlt⟩
  · rintro ⟨w, hw, hlt⟩
    cases hb : r.kernel.blockedSyscalls s with
    | false =>
      rw [((ho s).allowed hb).2] at hw
      cases hw
    | true =>
      have := ((ho s).blocked hb).2 w hw
      exact ⟨rfl, by omega⟩

/-- The shell (pid 2) forks two processes; the first blocks `fstat`, the second calls `exec`. -/
def siblings : List (Nat × Call) :=
  [(0, .fork true), (1, .fork true), (1, .fork true), (2, .block (some 8)), (3, .exec)]

theorem refused_iff_sibling : ∃ r, Run.exec step boot siblings = some r ∧ r.kernel.Refused 3 8 := by
  obtain ⟨r, hr, hq, h2, hw⟩ : ∃ r, Run.exec step boot siblings = some r ∧
      (r.kernel.proc 3).state = .live ∧ 2 < (r.kernel.proc 3).pid ∧
      ∃ w ∈ r.blockers 8, w < r.gauge 3 := ⟨_, rfl, rfl, by decide, 3, by decide, by decide⟩
  exact ⟨r, hr, (refused_iff hr hq).mpr ⟨h2, hw⟩⟩

/-- `fstat` is refused to the second, though none of its ancestors has blocked it. -/
theorem sibling_refused : ∃ r, Run.exec step boot siblings = some r ∧
    (r.kernel.proc 3).state = .live ∧ r.kernel.Refused 3 8 ∧
    ¬∃ w ∈ r.blockers 8, r.Ancestor w (r.kernel.proc 3).pid := by
  obtain ⟨r, hr, hq, href, hpid, hb, hf⟩ : ∃ r, Run.exec step boot siblings = some r ∧
      (r.kernel.proc 3).state = .live ∧ r.kernel.Refused 3 8 ∧ (r.kernel.proc 3).pid = 4 ∧
      r.blockers 8 = [3] ∧ r.forker 4 = 2 ∧ r.forker 2 = 1 ∧ r.forker 1 = 0 ∧ r.forker 0 = 0 :=
    ⟨_, rfl, rfl, by decide, rfl, rfl, rfl, rfl, rfl, rfl⟩
  refine ⟨r, hr, hq, href, ?_⟩
  rintro ⟨w, hw, hanc⟩
  rw [hb, List.mem_singleton] at hw
  rw [hpid, hw] at hanc
  have hold : (3 : Int) = 2 ∨ (3 : Int) = 1 ∨ (3 : Int) = 0 := by
    refine Relation.TransGen.head_induction_on (motive := fun m _ => m = 2 ∨ m = 1 ∨ m = 0) hanc ?_ ?_
    · intro m hm
      exact .inl (hm.symm.trans hf.1)
    · intro m n hm _ hn
      rcases hn with rfl | rfl | rfl
      · exact .inr (.inl (hm.symm.trans hf.2.1))
      · exact .inr (.inr (hm.symm.trans hf.2.2.1))
      · exact .inr (.inr (hm.symm.trans hf.2.2.2))
  omega

end Record

end Xv6.Block
