import AdvancedXv6.Access.Blockers

/-! Whose blocks are in force: `kill` lifts those that the table records for the process, `exit` lifts none,
and the table records one process for each system call only. -/

namespace Xv6.Block
open Function

variable {k t : Kernel} {p i j s : Nat} {c : Call} {e : Nat × Call} {n m : Int} {ok : Bool}

namespace Kernel

/-- A process that has neither exited nor been killed. -/
def Alive (k : Kernel) (i : Nat) : Prop := (k.proc i).state = .live ∧ (k.proc i).killed = false

def Living (k : Kernel) (n : Int) : Prop := ∃ i, k.Alive i ∧ (k.proc i).pid = n

/-- The call ends the process with the pid `n`, if there is one. -/
def Ends (k : Kernel) (e : Nat × Call) (n : Int) : Prop :=
  ¬k.Refused e.1 e.2.num ∧ (e.2 = .exit ∧ (k.proc e.1).pid = n ∨ e.2 = .kill (some n))

/-- A call of `unblock` that `unblock_dummy` permits. -/
def Lifts (k : Kernel) (e : Nat × Call) (s : Nat) : Prop :=
  e.2 = .unblock (some (s : Int)) ∧ ¬k.Refused e.1 24 ∧ s < maxSyscalls ∧ (k.proc e.1).pid ≤ k.whichPidBlockedIt s

instance (k : Kernel) (e : Nat × Call) (s : Nat) : Decidable (k.Lifts e s) := inferInstanceAs (Decidable (_ ∧ _))

/-- A call of `kill` that lifts the block of `s`. -/
def Cleans (k : Kernel) (e : Nat × Call) (s : Nat) : Prop :=
  e.2 = .kill (some (k.whichPidBlockedIt s)) ∧ ¬k.Refused e.1 6 ∧ s < maxSyscalls

instance (k : Kernel) (e : Nat × Call) (s : Nat) : Decidable (k.Cleans e s) := inferInstanceAs (Decidable (_ ∧ _))

/-- Slots in use are slots of the table, and a pid names one of them. -/
structure Lives (k : Kernel) : Prop where
  range : ∀ i, (k.proc i).state ≠ .unused → i < nProc
  distinct : ∀ i j, 0 < (k.proc i).pid → (k.proc i).pid = (k.proc j).pid → i = j

theorem Alive.used (h : k.Alive i) : (k.proc i).state ≠ .unused := by
  rw [h.1]
  decide

/-! ### Who lives on -/

theorem Lives.same (h : k.Lives) (hproc : ∀ i, (t.proc i).state = (k.proc i).state ∧ (t.proc i).pid = (k.proc i).pid) :
    t.Lives where
  range i hi := h.range i ((hproc i).1 ▸ hi)
  distinct i j hi hij := by
    rw [(hproc i).2] at hi hij
    rw [(hproc j).2] at hij
    exact h.distinct i j hi hij

theorem Lives.exit (h : k.Lives) (hp : (k.proc p).state = .live) : (k.exit p).Lives where
  range i hi := by
    refine h.range i fun hu => ?_
    simp only [Kernel.exit] at hi
    by_cases hip : i = p
    · rw [hip, hp] at hu
      cases hu
    · rw [if_neg hip] at hi
      split at hi <;> exact hi hu
  distinct i j hi hij := by
    have hpid (x : Nat) : ((k.exit p).proc x).pid = (k.proc x).pid := by
      simp only [Kernel.exit]
      split <;> split <;> rfl
    rw [hpid] at hi hij
    rw [hpid] at hij
    exact h.distinct i j hi hij

/-- A slot gets a pid of its own, or none. -/
theorem Lives.update {r : Proc} (h : k.Lives) (ht : t.proc = update k.proc i r) (hi : r.state ≠ .unused → i < nProc)
    (hpid : r.pid = 0 ∨ ∀ x, (k.proc x).pid < r.pid) : t.Lives where
  range x hx := by
    rw [ht] at hx
    by_cases hxi : x = i
    · rw [hxi, update_self] at hx
      rw [hxi]
      exact hi hx
    · rw [update_of_ne hxi] at hx
      exact h.range x hx
  distinct x y hx hxy := by
    rw [ht] at hx hxy
    by_cases hxi : x = i
    · by_cases hyi : y = i
      · exact hxi.trans hyi.symm
      · rw [hxi, update_self] at hx hxy
        rw [update_of_ne hyi] at hxy
        rcases hpid with h0 | hlt
        · omega
        · have := hlt y
          omega
    · rw [update_of_ne hxi] at hx hxy
      by_cases hyi : y = i
      · rw [hyi, update_self] at hxy
        rcases hpid with h0 | hlt
        · omega
        · have := hlt x
          omega
      · rw [update_of_ne hyi] at hxy
        exact h.distinct x y hx hxy

theorem find_lt {P : Nat → Bool} (h : (List.range nProc).find? P = some i) : i < nProc ∧ P i = true :=
  ⟨List.mem_range.mp (List.mem_of_find?_eq_some h), List.find?_some h⟩

theorem Living.congr (h : ∀ i, t.Alive i ↔ k.Alive i) (hpid : ∀ i, (t.proc i).pid = (k.proc i).pid) :
    t.Living n ↔ k.Living n := by
  unfold Living
  simp only [h, hpid]

theorem living_fork (hn : n < k.nextpid) : (k.fork p ok).Living n ↔ k.Living n := by
  rcases fork_cases k p ok with hk | ⟨i, r, hi, hpid, -, hk⟩
  · rw [hk]
  · rw [hk]
    constructor
    · rintro ⟨j, hj, hjn⟩
      have hji : j ≠ i := by
        rintro rfl
        dsimp only at hjn
        rw [update_self, hpid] at hjn
        omega
      unfold Alive at hj
      dsimp only at hj hjn
      rw [update_of_ne hji] at hj hjn
      exact ⟨j, hj, hjn⟩
    · rintro ⟨j, hj, hjn⟩
      have hji : j ≠ i := fun he => hj.used (he ▸ hi)
      refine ⟨j, ?_, ?_⟩
      · unfold Alive
        dsimp only
        rw [update_of_ne hji]
        exact hj
      · dsimp only
        rw [update_of_ne hji]
        exact hjn

theorem living_exit (hl : k.Lives) (hw : k.Wf) (hp : (k.proc p).state = .live) :
    (k.exit p).Living n ↔ k.Living n ∧ (k.proc p).pid ≠ n := by
  have hpos := (hw.first p (by rw [hp]; decide)).1
  have hproc (x : Nat) : ((k.exit p).proc x).pid = (k.proc x).pid ∧ ((k.exit p).proc x).killed = (k.proc x).killed ∧
      ((k.exit p).proc x).state = if x = p then .zombie else (k.proc x).state := by
    simp only [Kernel.exit]
    split <;> split <;> exact ⟨rfl, rfl, rfl⟩
  unfold Living Alive
  constructor
  · rintro ⟨i, ⟨hst, hk⟩, hi⟩
    rw [(hproc i).2.2] at hst
    rw [(hproc i).2.1] at hk
    rw [(hproc i).1] at hi
    by_cases hip : i = p
    · rw [if_pos hip] at hst
      cases hst
    · rw [if_neg hip] at hst
      refine ⟨⟨i, ⟨hst, hk⟩, hi⟩, fun he => hip ?_⟩
      exact (hl.distinct p i hpos (he.trans hi.symm)).symm
  · rintro ⟨⟨i, ⟨hst, hk⟩, hi⟩, hne⟩
    have hip : i ≠ p := fun he => hne (he ▸ hi)
    exact ⟨i, ⟨by rw [(hproc i).2.2, if_neg hip]; exact hst, (hproc i).2.1.trans hk⟩, (hproc i).1.trans hi⟩

theorem living_wait : (k.wait p).Living n ↔ k.Living n := by
  rw [Kernel.wait]
  cases hs : (List.range nProc).find? (fun i => (k.proc i).parent = some p ∧ (k.proc i).state = .zombie) with
  | none => rfl
  | some i =>
    have hz : (k.proc i).state = .zombie := by
      have := (find_lt hs).2
      simp only [decide_eq_true_eq] at this
      exact this.2
    unfold Living Alive
    refine exists_congr fun j => ?_
    by_cases hji : j = i
    · subst hji
      rw [setProc_self, hz]
      simp
    · rw [setProc_of_ne hji]

theorem living_kill (hl : k.Lives) (hw : k.Wf) : (k.kill m).Living n ↔ k.Living n ∧ m ≠ n := by
  have hfields (i : Nat) := kill_proc k m i
  have hpos {i : Nat} (hi : k.Alive i) : 0 < (k.proc i).pid := (hw.first i hi.used).1
  have hkilled (i : Nat) (hi : (k.proc i).state ≠ .unused) (hp : 0 < (k.proc i).pid) :
      ((k.kill m).proc i).killed = if (k.proc i).pid = m then true else (k.proc i).killed := by
    rw [kill]
    dsimp only
    cases hs : (List.range nProc).find? (fun i => (k.proc i).pid = m) with
    | none =>
      have hno := List.find?_eq_none.mp hs i (List.mem_range.mpr (hl.range i hi))
      rw [if_neg (by simpa using hno)]
    | some j =>
      have hj : (k.proc j).pid = m := by simpa using (find_lt hs).2
      by_cases hij : i = j
      · subst hij
        rw [setProc_self, if_pos hj]
      · rw [setProc_of_ne hij, if_neg fun he => hij (hl.distinct i j hp (he.trans hj.symm))]
  unfold Living
  constructor
  · rintro ⟨i, ⟨hst, hk⟩, hi⟩
    rw [(hfields i).1] at hst
    rw [(hfields i).2.1] at hi
    have hu : (k.proc i).state ≠ .unused := by
      rw [hst]
      decide
    rw [hkilled i hu (hw.first i hu).1] at hk
    split at hk
    · cases hk
    · rename_i hne
      exact ⟨⟨i, ⟨hst, hk⟩, hi⟩, fun he => hne (hi.trans he.symm)⟩
  · rintro ⟨⟨i, hi, hin⟩, hne⟩
    refine ⟨i, ⟨(hfields i).1.trans hi.1, ?_⟩, (hfields i).2.1.trans hin⟩
    rw [hkilled i hi.used (hpos hi), if_neg fun he => hne (he.symm.trans hin)]
    exact hi.2

theorem Lives.perform (h : k.Lives) (hw : k.Wf) (hp : (k.proc p).state = .live) : (k.perform p c).Lives := by
  cases c with
  | fork ok =>
    show (k.fork p ok).Lives
    rw [Kernel.fork]
    cases hs : (List.range nProc).find? (fun i => (k.proc i).state = .unused) with
    | none => exact h
    | some i =>
      have hlt := (find_lt hs).1
      cases ok with
      | false => exact h.update rfl (fun _ => hlt) (.inr hw.pid)
      | true =>
        refine h.update (i := i) (r := { k.proc i with pid := k.nextpid, state := .live, parent := some p, toBeBlocked := 0 })
          ?_ (fun _ => hlt) (.inr hw.pid)
        dsimp only
        rw [if_pos rfl]
        simp only [setProc, update_self, update_idem]
  | exit => exact h.exit hp
  | exec => exact h
  | wait =>
    show (k.wait p).Lives
    rw [Kernel.wait]
    split
    · exact h
    · exact h.update rfl (fun hu => absurd rfl hu) (.inl rfl)
  | kill pid =>
    cases pid with
    | none => exact h
    | some pid => exact h.same fun i => ⟨(kill_proc k pid i).1, (kill_proc k pid i).2.1⟩
  | block id =>
    cases id with
    | none => exact h
    | some id => exact h.same fun i => by rw [show (k.perform p (.block (some id))).proc = _ from (block_tables id).1]; exact ⟨rfl, rfl⟩
  | unblock id =>
    cases id with
    | none => exact h
    | some id =>
      exact h.same fun i => by rw [show (k.perform p (.unblock (some id))).proc = _ from (unblock_tables id).1]; exact ⟨rfl, rfl⟩

theorem living_perform (hl : k.Lives) (hw : k.Wf) (hp : (k.proc p).state = .live) (hn : n < k.nextpid) :
    (k.perform p c).Living n ↔ k.Living n ∧ ¬(c = .exit ∧ (k.proc p).pid = n ∨ c = .kill (some n)) := by
  have hother (hc : ¬(c = .exit ∧ (k.proc p).pid = n ∨ c = .kill (some n))) (h : (k.perform p c).Living n ↔ k.Living n) :
      (k.perform p c).Living n ↔ k.Living n ∧ ¬(c = .exit ∧ (k.proc p).pid = n ∨ c = .kill (some n)) :=
    h.trans (iff_self_and.mpr fun _ => hc)
  cases c with
  | fork ok => exact hother (by simp) (living_fork hn)
  | exit => exact (living_exit hl hw hp).trans (and_congr_right fun _ => by simp)
  | exec => exact hother (by simp) Iff.rfl
  | wait => exact hother (by simp) living_wait
  | kill pid =>
    cases pid with
    | none => exact hother (by simp) Iff.rfl
    | some m => exact (living_kill hl hw).trans (and_congr_right fun _ => by simp)
  | block id =>
    cases id with
    | none => exact hother (by simp) Iff.rfl
    | some id =>
      refine hother (by simp) ?_
      unfold Living Alive
      rw [show (k.perform p (.block (some id))).proc = _ from (block_tables id).1]
  | unblock id =>
    cases id with
    | none => exact hother (by simp) Iff.rfl
    | some id =>
      refine hother (by simp) ?_
      unfold Living Alive
      rw [show (k.perform p (.unblock (some id))).proc = _ from (unblock_tables id).1]

/-- What a step does to the flag of `s`. -/
theorem flag_perform (hr : ¬k.Refused p c.num) : (k.perform p c).blockedSyscalls s =
    if k.Blocks (p, c) s then true else if k.Lifts (p, c) s ∨ k.Cleans (p, c) s then false else k.blockedSyscalls s := by
  have hother (hb : ¬k.Blocks (p, c) s) (hl : ¬k.Lifts (p, c) s) (hc : ¬k.Cleans (p, c) s)
      (h : (k.perform p c).blockedSyscalls s = k.blockedSyscalls s) : (k.perform p c).blockedSyscalls s =
      if k.Blocks (p, c) s then true else if k.Lifts (p, c) s ∨ k.Cleans (p, c) s then false else k.blockedSyscalls s := by
    rw [if_neg hb, if_neg (not_or.mpr ⟨hl, hc⟩), h]
  cases c with
  | fork ok =>
    refine hother (by simp [Blocks]) (by simp [Lifts]) (by simp [Cleans]) ?_
    show (k.fork p ok).blockedSyscalls s = _
    rcases fork_cases k p ok with hk | ⟨_, _, _, _, _, hk⟩ <;> rw [hk]
  | exit => exact hother (by simp [Blocks]) (by simp [Lifts]) (by simp [Cleans]) rfl
  | exec => exact hother (by simp [Blocks]) (by simp [Lifts]) (by simp [Cleans]) rfl
  | wait =>
    refine hother (by simp [Blocks]) (by simp [Lifts]) (by simp [Cleans]) ?_
    show (k.wait p).blockedSyscalls s = _
    rw [Kernel.wait]
    split <;> rfl
  | kill pid =>
    cases pid with
    | none => exact hother (by simp [Blocks]) (by simp [Lifts]) (by simp [Cleans]) rfl
    | some m =>
      have hflag : (k.kill m).blockedSyscalls s =
          if s < maxSyscalls ∧ m = k.whichPidBlockedIt s then false else k.blockedSyscalls s := by
        rw [kill]
        dsimp only
        cases (List.range nProc).find? (fun i => (k.proc i).pid = m) <;> rfl
      have hcleans : k.Lifts (p, .kill (some m)) s ∨ k.Cleans (p, .kill (some m)) s ↔
          s < maxSyscalls ∧ m = k.whichPidBlockedIt s := by
        simp only [Lifts, Cleans, reduceCtorEq, false_and, false_or, Call.kill.injEq, Option.some.injEq]
        exact ⟨fun h => ⟨h.2.2, h.1⟩, fun h => ⟨h.2, hr, h.1⟩⟩
      rw [if_neg (by simp [Blocks])]
      exact hflag.trans (if_congr hcleans.symm rfl rfl)
  | block id =>
    cases id with
    | none => exact hother (by simp [Blocks]) (by simp [Lifts]) (by simp [Cleans]) rfl
    | some id =>
      have hno : ¬(k.Lifts (p, .block (some id)) s ∨ k.Cleans (p, .block (some id)) s) := by simp [Lifts, Cleans]
      rw [if_neg hno]
      have hblocks : k.Blocks (p, .block (some id)) s ↔ id = s ∧ s < maxSyscalls ∧ s ≠ 1 ∧ s ≠ 2 := by
        simp only [Blocks, Call.block.injEq, Option.some.injEq]
        exact and_congr_right fun _ => and_iff_right hr
      refine Eq.trans ?_ (if_congr hblocks.symm rfl rfl)
      show (k.blockDummy p id).blockedSyscalls s = _
      rw [blockDummy]
      by_cases hbad : id < 0 ∨ maxSyscalls ≤ id ∨ id = 1 ∨ id = 2
      · rw [if_pos hbad, if_neg]
        rintro ⟨rfl, hlt, h1, h2⟩
        omega
      · rw [if_neg hbad]
        by_cases hs : s = id.toNat
        · subst hs
          rw [if_pos ⟨(Int.toNat_of_nonneg (by omega)).symm, by omega, by omega, by omega⟩]
          exact update_self ..
        · have hne : id ≠ s := fun h => hs (by rw [h]; rfl)
          rw [if_neg fun h => hne h.1]
          exact update_of_ne hs ..
  | unblock id =>
    cases id with
    | none => exact hother (by simp [Blocks]) (by simp [Lifts]) (by simp [Cleans]) rfl
    | some id =>
      have hflag : (k.unblockDummy p id).blockedSyscalls s =
          if id = s ∧ s < maxSyscalls ∧ (k.proc p).pid ≤ k.whichPidBlockedIt s then false else k.blockedSyscalls s := by
        rw [unblockDummy]
        by_cases hbad : id < 0 ∨ maxSyscalls ≤ id
        · rw [if_pos hbad, if_neg]
          rintro ⟨rfl, hlt, -⟩
          omega
        · rw [if_neg hbad]
          by_cases hs : s = id.toNat
          · subst hs
            have hid : id = (id.toNat : Int) := (Int.toNat_of_nonneg (by omega)).symm
            have hlt : id.toNat < maxSyscalls := by omega
            dsimp only
            by_cases hle : (k.proc p).pid ≤ k.whichPidBlockedIt id.toNat
            · rw [if_pos hle, if_pos ⟨hid, hlt, hle⟩]
              exact update_self ..
            · rw [if_neg hle, if_neg fun h => hle h.2.2]
          · have hne : id ≠ s := fun h => hs (by rw [h]; rfl)
            refine Eq.trans ?_ (if_neg fun h => hne h.1).symm
            dsimp only
            split
            · exact update_of_ne hs ..
            · rfl
      have hlifts : k.Lifts (p, .unblock (some id)) s ∨ k.Cleans (p, .unblock (some id)) s ↔
          id = s ∧ s < maxSyscalls ∧ (k.proc p).pid ≤ k.whichPidBlockedIt s := by
        simp only [Lifts, Cleans, reduceCtorEq, false_and, or_false, Call.unblock.injEq, Option.some.injEq]
        exact and_congr_right fun _ => and_iff_right hr
      rw [if_neg (by simp [Blocks])]
      exact hflag.trans (if_congr hlifts.symm rfl rfl)

theorem nextpid_perform : k.nextpid ≤ (k.perform p c).nextpid := by
  cases c with
  | fork ok =>
    show k.nextpid ≤ (k.fork p ok).nextpid
    rcases fork_cases k p ok with hk | ⟨_, _, _, _, _, hk⟩
    · exact Int.le_of_eq (congrArg nextpid hk).symm
    · rw [hk]
      exact Int.le_add_one (Int.le_refl _)
  | exit => exact Int.le_refl _
  | exec => exact Int.le_refl _
  | wait =>
    show k.nextpid ≤ (k.wait p).nextpid
    rw [Kernel.wait]
    split <;> exact Int.le_refl _
  | kill pid =>
    cases pid with
    | none => exact Int.le_refl _
    | some pid => exact Int.le_of_eq (kill_tables k pid).1.symm
  | block id =>
    cases id with
    | none => exact Int.le_refl _
    | some id => exact Int.le_of_eq (block_tables id).2.1.symm
  | unblock id =>
    cases id with
    | none => exact Int.le_refl _
    | some id => exact Int.le_of_eq (unblock_tables id).2.1.symm

theorem nextpid_step (ht : k.step e = some t) : k.nextpid ≤ t.nextpid := by
  obtain ⟨p, c⟩ := e
  obtain ⟨-, -, ⟨-, rfl⟩ | ⟨-, rfl⟩⟩ := step_cases ht
  · exact Int.le_refl _
  · exact marked_tables.1 ▸ nextpid_perform

theorem Lives.step (h : k.Lives) (hw : k.Wf) (ht : k.step (p, c) = some t) : t.Lives := by
  obtain ⟨hp, -, ⟨-, rfl⟩ | ⟨-, rfl⟩⟩ := step_cases ht
  · exact h
  · have hm (i : Nat) := marked_proc (k := k) (p := p) (c := c) i
    exact Lives.perform (h.same fun i => ⟨(hm i).1, (hm i).2.1⟩) hw.marked ((hm p).1.trans hp)

theorem living_marked : (k.marked p c).Living n ↔ k.Living n := by
  refine Living.congr (fun i => ?_) fun i => (marked_proc i).2.1
  unfold Alive
  rw [(marked_proc i).1, marked]
  split
  · by_cases hi : i = p
    · subst hi
      rw [setProc_self]
    · rw [setProc_of_ne hi]
  · rfl

/-- A process lives on unless the step ends it. -/
theorem living_step (hl : k.Lives) (hw : k.Wf) (ht : k.step e = some t) (hn : n < k.nextpid) :
    t.Living n ↔ k.Living n ∧ ¬k.Ends e n := by
  obtain ⟨p, c⟩ := e
  obtain ⟨hp, -, ⟨hr, rfl⟩ | ⟨hr, rfl⟩⟩ := step_cases ht
  · exact iff_self_and.mpr fun _ hends => hends.1 hr
  · have hm (i : Nat) := marked_proc (k := k) (p := p) (c := c) i
    rw [living_perform (hl.same fun i => ⟨(hm i).1, (hm i).2.1⟩) hw.marked ((hm p).1.trans hp)
      (by rw [marked_tables.1]; exact hn), living_marked, (hm p).2.1]
    exact and_congr_right fun _ => not_congr (and_iff_right hr).symm

theorem flag_step (ht : k.step e = some t) : t.blockedSyscalls s =
    if k.Blocks e s then true else if k.Lifts e s ∨ k.Cleans e s then false else k.blockedSyscalls s := by
  obtain ⟨p, c⟩ := e
  obtain ⟨hp, -, ⟨hr, rfl⟩ | ⟨hr, rfl⟩⟩ := step_cases ht
  · have hno {a : Call} (ha : c = a) (h : ¬t.Refused p a.num) : False := h (ha ▸ hr)
    rw [if_neg fun h => hno h.1 h.2.1, if_neg (not_or.mpr ⟨fun h => hno h.1 h.2.1, fun h => hno h.1 h.2.1⟩)]
  · by_cases hc : c = .exec
    · subst hc
      rw [if_neg (by simp [Blocks]), if_neg (by simp [Lifts, Cleans])]
      exact congrFun marked_tables.2.2.2 s
    · have hm : k.marked p c = k := by
        rw [marked, if_neg]
        rintro ⟨-, hnum⟩
        cases c <;> first | contradiction | cases hnum
      rw [hm]
      exact flag_perform hr

end Kernel

/-- The kernel with, for each system call, the pids of the processes that have blocked it since `unblock` lifted
the blocks last. -/
structure Ledger where
  kernel : Kernel
  blocks : Nat → List Int

namespace Ledger
variable {l l' : Ledger} {es : List (Nat × Call)}

def step (l : Ledger) (e : Nat × Call) : Option Ledger :=
  (l.kernel.step e).map fun t =>
    { kernel := t
      blocks := fun s =>
        if l.kernel.Blocks e s then (l.kernel.proc e.1).pid :: l.blocks s
        else if l.kernel.Lifts e s then [] else l.blocks s }

def boot : Ledger := ⟨Kernel.boot, fun _ => []⟩

/-- The process with the pid `n` lives and has blocked `s`. -/
def Owner (l : Ledger) (s : Nat) (n : Int) : Prop := n ∈ l.blocks s ∧ l.kernel.Living n

/-- A system call is blocked exactly if a process that lives has blocked it. -/
def Owned (l : Ledger) : Prop := ∀ s, s < maxSyscalls → (l.kernel.blockedSyscalls s = true ↔ ∃ n, l.Owner s n)

/-- What the end of a process asks for: if the call is a `kill` with the pid that the table records for `s`, then
no other process that lives has blocked `s`; if not, then the process has not blocked `s`, or another one that
lives has blocked it too. -/
def Sole (l : Ledger) (e : Nat × Call) : Prop :=
  ∀ n, l.kernel.Ends e n → ∀ s, s < maxSyscalls →
    (l.kernel.Cleans e s → ∀ m, l.Owner s m → m = n) ∧
    (¬l.kernel.Cleans e s → l.Owner s n → ∃ m, l.Owner s m ∧ m ≠ n)

structure Wf (l : Ledger) : Prop where
  wf : l.kernel.Wf
  lives : l.kernel.Lives
  known : ∀ s n, n ∈ l.blocks s → n < l.kernel.nextpid

theorem step_kernel (h : l.step e = some l') : l.kernel.step e = some l'.kernel := by
  obtain ⟨t, ht, rfl⟩ := Option.map_eq_some_iff.mp h
  exact ht

theorem step_blocks (h : l.step e = some l') (s : Nat) : l'.blocks s =
    if l.kernel.Blocks e s then (l.kernel.proc e.1).pid :: l.blocks s
    else if l.kernel.Lifts e s then [] else l.blocks s := by
  obtain ⟨t, -, rfl⟩ := Option.map_eq_some_iff.mp h
  rfl

theorem ends_of_cleans (h : k.Cleans e s) : k.Ends e (k.whichPidBlockedIt s) := by
  refine ⟨?_, .inr h.1⟩
  rw [h.1]
  exact h.2.1

/-- A step ends one process at most, and then blocks nothing and lifts nothing by `unblock`. -/
theorem ends_unique (h : k.Ends e n) :
    (∀ m, k.Ends e m ↔ m = n) ∧ ∀ s, ¬k.Blocks e s ∧ ¬k.Lifts e s := by
  obtain ⟨hr, ⟨hc, rfl⟩ | hc⟩ := h
  · refine ⟨fun m => ⟨fun hm => ?_, fun hm => ⟨hr, .inl ⟨hc, hm.symm⟩⟩⟩, fun s => ?_⟩
    · rcases hm.2 with ⟨-, hm⟩ | hm
      · exact hm.symm
      · rw [hc] at hm
        cases hm
    · simp [Kernel.Blocks, Kernel.Lifts, hc]
  · refine ⟨fun m => ⟨fun hm => ?_, fun hm => ⟨hr, .inr (hm ▸ hc)⟩⟩, fun s => ?_⟩
    · rcases hm.2 with ⟨hm, -⟩ | hm
      · rw [hc] at hm
        cases hm
      · rw [hc] at hm
        cases hm
        rfl
    · simp [Kernel.Blocks, Kernel.Lifts, hc]

/-- A process that calls `block` lives. -/
theorem living_of_blocks (ht : k.step e = some t) (h : k.Blocks e s) : k.Living (k.proc e.1).pid := by
  rw [Kernel.step] at ht
  split at ht
  · rename_i hc
    refine ⟨e.1, ⟨hc.2.1, ?_⟩, rfl⟩
    rw [Bool.eq_false_iff]
    intro hk
    have hexit := hc.2.2.1 hk
    rw [h.1] at hexit
    cases hexit
  · cases ht

theorem Wf.step (h : l.Wf) (hs : l.step e = some l') : l'.Wf := by
  have ht := step_kernel hs
  refine ⟨h.wf.step ht, h.lives.step h.wf ht, fun s n hn => ?_⟩
  have hnext := Kernel.nextpid_step ht
  rw [step_blocks hs] at hn
  split at hn
  · rcases List.mem_cons.mp hn with rfl | hn
    · exact Int.lt_of_lt_of_le (h.wf.pid e.1) hnext
    · exact Int.lt_of_lt_of_le (h.known s n hn) hnext
  · split at hn
    · cases hn
    · exact Int.lt_of_lt_of_le (h.known s n hn) hnext

theorem owner_step (h : l.Wf) (hs : l.step e = some l') (hn : n ∈ l'.blocks s) :
    l'.kernel.Living n ↔ l.kernel.Living n ∧ ¬l.kernel.Ends e n := by
  refine Kernel.living_step h.lives h.wf (step_kernel hs) ?_
  rw [step_blocks hs] at hn
  split at hn
  · rcases List.mem_cons.mp hn with rfl | hn
    · exact h.wf.pid e.1
    · exact h.known s n hn
  · split at hn
    · cases hn
    · exact h.known s n hn

theorem owned_step (h : l.Wf) (ho : l.Owned) (hs : l.step e = some l') : l'.Owned ↔ l.Sole e := by
  have ht := step_kernel hs
  by_cases hend : ∃ n, l.kernel.Ends e n
  · obtain ⟨n, hend⟩ := hend
    obtain ⟨huniq, hno⟩ := ends_unique hend
    have howner (s : Nat) (m : Int) : l'.Owner s m ↔ l.Owner s m ∧ m ≠ n := by
      have hblocks : l'.blocks s = l.blocks s := by
        rw [step_blocks hs, if_neg (hno s).1, if_neg (hno s).2]
      unfold Owner
      rw [hblocks, and_assoc]
      exact and_congr_right fun hm => by rw [owner_step h hs (hblocks ▸ hm), huniq]
    have hflag (s : Nat) : l'.kernel.blockedSyscalls s = if l.kernel.Cleans e s then false else l.kernel.blockedSyscalls s := by
      rw [Kernel.flag_step ht, if_neg (hno s).1]
      simp only [(hno s).2, false_or]
    unfold Owned Sole
    simp only [huniq, forall_eq, howner, hflag]
    refine forall₂_congr fun s hlt => ?_
    by_cases hc : l.kernel.Cleans e s
    · simp only [hc, if_true, Bool.false_eq_true, false_iff, not_exists, not_and, not_not, true_implies, not_true_eq_false,
        false_implies, and_true, ne_eq]
    · simp only [hc, if_false, false_implies, true_and, not_false_eq_true, true_implies, ho s hlt]
      constructor
      · exact fun hiff hn => hiff.mp ⟨n, hn⟩
      · refine fun hsole => ⟨fun hex => ?_, fun hex => hex.imp fun m hm => hm.1⟩
        obtain ⟨m, hm⟩ := hex
        by_cases hmn : m = n
        · exact hsole (hmn ▸ hm)
        · exact ⟨m, hm, hmn⟩
  · have hnone (n : Int) : ¬l.kernel.Ends e n := fun hn => hend ⟨n, hn⟩
    refine iff_of_true (fun s hlt => ?_) fun n hn => absurd hn (hnone n)
    have howner (m : Int) : l'.Owner s m ↔ m ∈ l'.blocks s ∧ l.kernel.Living m := by
      unfold Owner
      exact and_congr_right fun hm => (owner_step h hs hm).trans (and_iff_left (hnone m))
    have hclean : ¬l.kernel.Cleans e s := fun hc => hnone _ (ends_of_cleans hc)
    simp only [howner, step_blocks hs, Kernel.flag_step ht, hclean, or_false]
    by_cases hb : l.kernel.Blocks e s
    · simp only [hb, if_true, true_iff]
      exact ⟨_, List.mem_cons_self, living_of_blocks ht hb⟩
    · by_cases hl : l.kernel.Lifts e s
      · simp [hb, hl]
      · simp only [hb, hl, if_false]
        exact ho s hlt

theorem wf_boot : boot.Wf where
  wf := Kernel.wf_boot
  lives := by
    have hused (i : Nat) (hi : i ≠ 0) : boot.kernel.proc i = ⟨.unused, 0, none, false, 0⟩ := if_neg hi
    refine ⟨fun i hi => ?_, fun i j hi hij => ?_⟩
    · by_cases h0 : i = 0
      · rw [h0]
        decide
      · rw [hused i h0] at hi
        exact absurd rfl hi
    · have hpos (x : Nat) (hx : 0 < (boot.kernel.proc x).pid) : x = 0 := by
        by_contra h0
        rw [hused x h0] at hx
        exact absurd hx (by decide)
      rw [hpos i hi, hpos j (hij ▸ hi)]
  known s n hn := nomatch hn

theorem owned_boot : boot.Owned := by
  intro s _
  refine iff_of_false (by rintro ⟨⟩) ?_
  rintro ⟨n, hn, -⟩
  cases hn

/-- In a run the blocks in force are those of the processes that live, if and only if each process that ends has
none, or has shared it with another one that does not rely on its place in the table. -/
theorem owned_iff (es : List (Nat × Call)) :
    Run.Always step (fun _ _ t => t.Owned) boot es ↔ Run.Always step (fun l e _ => l.Sole e) boot es := by
  refine Run.always_congr (I := fun l => l.Wf ∧ l.Owned) (fun l e t hl ht => ?_) ⟨wf_boot, owned_boot⟩
  exact ⟨owned_step hl.1 hl.2 ht, fun ho => ⟨hl.1.step ht, ho⟩⟩

/-- The shell forks a process, which blocks `fstat` and exits. -/
def leftBehind : List (Nat × Call) := [(0, .fork true), (1, .fork true), (2, .block (some 8)), (2, .exit)]

/-- `fstat` stays blocked, though nobody who has blocked it lives. -/
theorem left_behind : ∃ l, Run.exec step boot leftBehind = some l ∧ l.kernel.blockedSyscalls 8 = true ∧
    ¬∃ n, l.Owner 8 n := by
  obtain ⟨l, hl, hflag, hblocks, hzombie, hpid⟩ : ∃ l, Run.exec step boot leftBehind = some l ∧
      l.kernel.blockedSyscalls 8 = true ∧ l.blocks 8 = [3] ∧ (l.kernel.proc 2).state = .zombie ∧
      (l.kernel.proc 2).pid = 3 := ⟨_, rfl, rfl, rfl, rfl, rfl⟩
  refine ⟨l, hl, hflag, ?_⟩
  rintro ⟨n, hn, i, hi, hin⟩
  rw [hblocks, List.mem_singleton] at hn
  have hwf : l.Wf := Run.invariant (fun _ _ _ hw hs => hw.step hs) wf_boot hl
  obtain rfl : 2 = i := hwf.lives.distinct 2 i (by rw [hpid]; decide) (by rw [hpid, hin, hn])
  cases hzombie.symm.trans hi.1

end Ledger

end Xv6.Block
