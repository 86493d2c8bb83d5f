import AdvancedXv6.Lib.Ownership
import AdvancedXv6.Locks.Flow

/-! The spinlocks: each one that is taken is held by one CPU, and a CPU that holds one has its
interrupts off. -/

namespace Xv6.Locks
open Function Ownership

/-- What is under way fits together. -/
structure Flow.Ok (a : Flow) : Prop where
  named : a.named ⊆ a.held
  free : ∀ i, a.free = some i → .lk i ∈ a.held
  owes : ∀ i, a.owes = some i → .lk i ∈ a.held
  bound : ∀ i, a.bound = some i → .lk i ∈ a.held ∨ .ptable ∈ a.held
  parked : a.parked ≠ none → a.Only {.ptable} ∧ a.proc = true
  zombie : a.parked = some .zombie → a.owns = ∅ ∧ a.kids = ∅

section
variable {a : Flow} {S : Finset Lock} {x : Instr} {l : Lock} {i : Nat} {b : Option Nat}

theorem Flow.Ends.depth (h : a.Ends S b) : a.depth = S.card := by
  obtain ⟨hextra, rfl, -⟩ := h
  rw [Flow.depth, hextra, Nat.add_zero]

theorem Flow.depth_pos (hl : l ∈ a.held) : 0 < a.depth :=
  Nat.lt_of_lt_of_le (Finset.card_pos.mpr ⟨l, hl⟩) (Nat.le_add_right ..)

theorem Flow.Ok.of_none (hp : a.parked = none) (hnamed : a.named ⊆ a.held)
    (hfree : ∀ i, a.free = some i → .lk i ∈ a.held) (howes : ∀ i, a.owes = some i → .lk i ∈ a.held)
    (hbound : ∀ i, a.bound = some i → .lk i ∈ a.held ∨ .ptable ∈ a.held) : a.Ok :=
  ⟨hnamed, hfree, howes, hbound, fun h => absurd hp h, fun h => absurd (h.symm.trans hp) (Option.some_ne_none _)⟩

theorem Flow.Only.ok (h : a.Only S) (hp : a.parked ≠ none → S = {.ptable} ∧ a.proc = true)
    (hz : a.parked = some .zombie → a.owns = ∅ ∧ a.kids = ∅) : a.Ok := by
  have honly := h
  obtain ⟨-, rfl, hnamed, hfree, howes, hbound⟩ := h
  refine ⟨hnamed.subset, ?_, ?_, ?_, ?_, hz⟩
  · simp [hfree]
  · simp [howes]
  · simp [hbound]
  · exact fun h => ⟨(hp h).1 ▸ honly, (hp h).2⟩

/-- An instruction that is allowed leaves the thread's affairs in order. -/
theorem Flow.Ok.next (h : a.Ok) (hx : x.allowed a) : (x.next a).Ok := by
  obtain ⟨hpark, hguard⟩ := hx
  by_cases hs : x = .sched
  · subst hs
    obtain ⟨hheld, -⟩ := h.parked (hpark.mpr rfl)
    exact Flow.Only.ok (a := Instr.sched.next a) hheld (fun h => absurd rfl h) fun h => absurd h.symm (Option.some_ne_none _)
  have hnone : a.parked = none := not_not.mp fun hp => hs (hpark.mp hp)
  cases x with
  | sched => exact absurd rfl hs
  | xchg l =>
    have hsub : a.held ⊆ insert l a.held := Finset.subset_insert ..
    exact .of_none hnone (h.named.trans hsub) (fun i hi => hsub (h.free i hi)) (fun i hi => hsub (h.owes i hi))
      fun i hi => (h.bound i hi).imp (@hsub _) (@hsub _)
  | setCpu l => exact .of_none hnone (Finset.insert_subset hguard h.named) h.free h.owes h.bound
  | clearCpu l => exact .of_none hnone ((Finset.erase_subset ..).trans h.named) h.free h.owes h.bound
  | clear l =>
    obtain ⟨hheld, hnamed, hlk, htable⟩ := hguard
    have hkeep {k : Lock} (hk : k ∈ a.held) (hne : k ≠ l) : k ∈ a.held.erase l := Finset.mem_erase.mpr ⟨hne, hk⟩
    refine .of_none hnone ?_ ?_ ?_ ?_
    · intro k hk
      exact hkeep (h.named hk) fun heq => hnamed (heq ▸ hk)
    · exact fun i hi => hkeep (h.free i hi) fun heq => (hlk i heq.symm).1 hi
    · exact fun i hi => hkeep (h.owes i hi) fun heq => (hlk i heq.symm).2.1 hi
    · intro i hi
      have hne : l ≠ .ptable := fun heq => Option.some_ne_none i (hi.symm.trans (htable heq))
      by_cases heq : l = .lk i
      · exact .inr (hkeep ((hlk i heq).2.2 hi) hne.symm)
      · exact (h.bound i hi).imp (fun hk => hkeep hk fun h => heq h.symm) fun hk => hkeep hk hne.symm
  | await i =>
    obtain ⟨⟨-, hheld, -⟩, -⟩ := hguard
    refine .of_none hnone h.named (fun j hj => ?_) h.owes h.bound
    rw [← Option.some.inj hj, show (Instr.next (.await i) a).held = a.held from rfl, hheld]
    exact Finset.mem_singleton_self _
  | take i => exact .of_none hnone h.named (fun j hj => absurd hj.symm (Option.some_ne_none j)) h.owes h.bound
  | readHeld i => exact .of_none hnone h.named h.free h.owes h.bound
  | drop i =>
    refine .of_none hnone h.named h.free (fun j hj => ?_) h.bound
    rw [← Option.some.inj hj]
    exact hguard.1
  | wakeup1 ch =>
    refine .of_none hnone h.named h.free (fun j hj => ?_) h.bound
    have hj : (if a.owes = ch.lock? then none else a.owes) = some j := hj
    split at hj
    · exact absurd hj.symm (Option.some_ne_none j)
    · exact h.owes j hj
  | stand =>
    exact Flow.Only.ok (a := Instr.stand.next a) hguard.1 (fun _ => ⟨rfl, hguard.2⟩) fun h => Parked.noConfusion (Option.some.inj h)
  | doze ch =>
    obtain ⟨⟨hextra, hheld, hnamed, hfree, howes, -⟩, hproc⟩ := hguard
    exact Flow.Only.ok (a := Instr.next (.doze ch) a) ⟨hextra, hheld, hnamed, hfree, howes, rfl⟩ (fun _ => ⟨rfl, hproc⟩)
      fun h => Parked.noConfusion (Option.some.inj h)
  | leave => exact Flow.Only.ok (a := Instr.leave.next a) hguard.1 (fun _ => ⟨rfl, hguard.2⟩) fun _ => ⟨rfl, rfl⟩
  | alloc ok | scan =>
    exact Flow.Only.ok (a := a.holds ∅) Flow.only_holds (fun h => absurd rfl h) fun h => absurd h.symm (Option.some_ne_none _)
  | _ => exact .of_none hnone h.named h.free h.owes h.bound

end

variable {C : Type}

/-- The registers of the CPUs and the spinlocks are as the threads that run count on. -/
structure Spins (cpu : C → Cpu) (lock : Lock → Spinlock C) (h : C → Flow) : Prop where
  ncli : ∀ c, (cpu c).ncli = (h c).depth
  masked : ∀ c, 0 < (h c).depth → (cpu c).iflag = false
  holds : Exact (fun l => (lock l).locked = true) fun c l => l ∈ (h c).held
  named : ∀ l c, (lock l).cpu = some c ↔ l ∈ (h c).named

namespace Spins
variable {cpu cpu' : C → Cpu} {lock lock' : Lock → Spinlock C} {h : C → Flow} {c d : C} {b : Flow} {l : Lock}

theorem holding (hs : Spins cpu lock h) (ok : (h c).Ok) :
    ((lock l).locked = true ∧ (lock l).cpu = some c) ↔ l ∈ (h c).named :=
  ⟨fun hl => (hs.named l c).mp hl.2, fun hl => ⟨hs.holds.valid (ok.named hl), (hs.named l c).mpr hl⟩⟩

theorem masked_of_mem (hs : Spins cpu lock h) (hl : l ∈ (h c).held) : (cpu c).iflag = false :=
  hs.masked c (Flow.depth_pos hl)

variable [DecidableEq C]

/-- The thread on `c` goes on; the other CPUs have the registers that they had. -/
theorem turn (hs : Spins cpu lock h) (hcpu : ∀ d, d ≠ c → cpu' d = cpu d) (hncli : (cpu' c).ncli = b.depth)
    (hmasked : 0 < b.depth → (cpu' c).iflag = false)
    (hholds : Exact (fun l => (lock' l).locked = true) fun d l => l ∈ (update h c b d).held)
    (hnamed : ∀ l d, (lock' l).cpu = some d ↔ l ∈ (update h c b d).named) : Spins cpu' lock' (update h c b) := by
  refine ⟨fun d => ?_, fun d => ?_, hholds, hnamed⟩
  · by_cases hd : d = c
    · subst hd
      rwa [update_self]
    · rw [update_of_ne hd, hcpu d hd]
      exact hs.ncli d
  · by_cases hd : d = c
    · subst hd
      rwa [update_self]
    · rw [update_of_ne hd, hcpu d hd]
      exact hs.masked d

theorem held_update (hb : b.held = (h c).held) (d : C) : (update h c b d).held = (h d).held := by
  by_cases hd : d = c
  · subst hd
    rw [update_self, hb]
  · rw [update_of_ne hd]

theorem named_update (hb : b.named = (h c).named) (d : C) : (update h c b d).named = (h d).named := by
  by_cases hd : d = c
  · subst hd
    rw [update_self, hb]
  · rw [update_of_ne hd]

/-- The thread does nothing to the spinlocks. -/
theorem keep (hs : Spins cpu lock h) (hcpu : ∀ d, d ≠ c → cpu' d = cpu d) (hncli : (cpu' c).ncli = (cpu c).ncli)
    (hmasked : 0 < (h c).depth → (cpu' c).iflag = false) (hextra : b.extra = (h c).extra)
    (hheld : b.held = (h c).held) (hnamed : b.named = (h c).named) : Spins cpu' lock (update h c b) := by
  have hdepth : b.depth = (h c).depth := by rw [Flow.depth, hextra, hheld, Flow.depth]
  refine hs.turn hcpu ?_ ?_ (hs.holds.congr fun d l => by rw [held_update hheld]) fun l d => ?_
  · rw [hncli, hs.ncli c, hdepth]
  · rwa [hdepth]
  · rw [named_update hnamed]
    exact hs.named l d

section Steps
variable (hs : Spins cpu lock h) (hcpu : ∀ d, d ≠ c → cpu' d = cpu d)
include hs hcpu

theorem pushcli (hncli : (cpu' c).ncli = (cpu c).ncli + 1) (hiflag : (cpu' c).iflag = false) :
    Spins cpu' lock (update h c (Instr.pushcli.next (h c))) := by
  have hheld (d : C) := held_update (h := h) (c := c) (b := Instr.pushcli.next (h c)) rfl d
  have hnamed (d : C) := named_update (h := h) (c := c) (b := Instr.pushcli.next (h c)) rfl d
  refine hs.turn hcpu ?_ (fun _ => hiflag) (hs.holds.congr fun d l => by rw [hheld]) fun l d => ?_
  · rw [hncli, hs.ncli c]
    rfl
  · rw [hnamed]
    exact hs.named l d

theorem popcli (hpos : 0 < (h c).extra) (hncli : (cpu' c).ncli = (cpu c).ncli - 1)
    (hiflag : (cpu c).ncli ≠ 1 → (cpu' c).iflag = false) : Spins cpu' lock (update h c (Instr.popcli.next (h c))) := by
  have hheld (d : C) := held_update (h := h) (c := c) (b := Instr.popcli.next (h c)) rfl d
  have hnamed (d : C) := named_update (h := h) (c := c) (b := Instr.popcli.next (h c)) rfl d
  have hdepth : (Instr.popcli.next (h c)).depth = (cpu c).ncli - 1 := by
    rw [hs.ncli c]
    exact (Nat.add_sub_assoc hpos _).symm
  refine hs.turn hcpu ?_ (fun h => hiflag ?_) (hs.holds.congr fun d l => by rw [hheld]) fun l d => ?_
  · rw [hncli, hdepth]
  · omega
  · rw [hnamed]
    exact hs.named l d

variable (hncli : (cpu' c).ncli = (cpu c).ncli) (hiflag : (cpu' c).iflag = (cpu c).iflag)
include hncli hiflag

theorem xchg (hfree : (lock l).locked = false) (hpos : 0 < (h c).extra) (hl : l ∉ (h c).held) :
    Spins cpu' (update lock l { lock l with locked := true }) (update h c ((Instr.xchg l).next (h c))) := by
  have hnamed (d : C) := named_update (h := h) (c := c) (b := (Instr.xchg l).next (h c)) rfl d
  have hdepth : ((Instr.xchg l).next (h c)).depth = (h c).depth := by
    simp only [Flow.depth, Instr.next, Finset.card_insert_of_notMem hl]
    omega
  refine hs.turn hcpu ?_ ?_ (hs.holds.gain (a := l) c ?_ (fun k => ?_) fun d k => ?_) fun k d => ?_
  · rw [hncli, hs.ncli c, hdepth]
  · rw [hdepth, hiflag]
    exact hs.masked c
  · rw [hfree]
    exact Bool.false_ne_true
  · by_cases hk : k = l
    · subst hk
      simp
    · simp [hk]
  · by_cases hd : d = c
    · subst hd
      simp [Instr.next, or_comm]
    · simp [hd]
  · rw [hnamed, ← hs.named k d]
    by_cases hk : k = l
    · subst hk
      rw [update_self]
    · rw [update_of_ne hk]

/-- `lk->cpu` changes, for a lock that `c` holds. -/
theorem rename {x : Option C} (hl : l ∈ (h c).held) (hsub : ∀ d, (h d).named ⊆ (h d).held)
    (hextra : b.extra = (h c).extra) (hheld : b.held = (h c).held) (hx : ∀ d, x = some d ↔ d = c ∧ l ∈ b.named)
    (hnamed : ∀ k, k ≠ l → (k ∈ b.named ↔ k ∈ (h c).named)) :
    Spins cpu' (update lock l { lock l with cpu := x }) (update h c b) := by
  have hdepth : b.depth = (h c).depth := by rw [Flow.depth, hextra, hheld, Flow.depth]
  refine hs.turn hcpu ?_ ?_ ?_ fun k d => ?_
  · rw [hncli, hs.ncli c, hdepth]
  · rw [hdepth, hiflag]
    exact hs.masked c
  · have hlocked (k : Lock) : (update lock l { lock l with cpu := x } k).locked = (lock k).locked := by
      by_cases hk : k = l
      · subst hk
        rw [update_self]
      · rw [update_of_ne hk]
    simp only [hlocked, held_update hheld]
    exact hs.holds
  · by_cases hk : k = l
    · subst hk
      rw [update_self, hx d]
      by_cases hd : d = c
      · subst hd
        rw [update_self]
        exact and_iff_right rfl
      · rw [update_of_ne hd]
        exact iff_of_false (fun h => hd h.1) fun h => hd (hs.holds.unique (hsub d h) hl)
    · rw [update_of_ne hk, hs.named k d]
      by_cases hd : d = c
      · subst hd
        rw [update_self, hnamed k hk]
      · rw [update_of_ne hd]

theorem setCpu (hl : l ∈ (h c).held) (hsub : ∀ d, (h d).named ⊆ (h d).held) :
    Spins cpu' (update lock l { lock l with cpu := some c }) (update h c ((Instr.setCpu l).next (h c))) := by
  refine hs.rename hcpu hncli hiflag hl hsub rfl rfl ?_ ?_
  · intro d
    simp [Instr.next, eq_comm]
  · intro k hk
    simp [Instr.next, hk]

theorem clearCpu (hl : l ∈ (h c).held) (hsub : ∀ d, (h d).named ⊆ (h d).held) :
    Spins cpu' (update lock l { lock l with cpu := none }) (update h c ((Instr.clearCpu l).next (h c))) := by
  refine hs.rename hcpu hncli hiflag hl hsub rfl rfl ?_ ?_
  · intro d
    simp [Instr.next]
  · intro k hk
    simp [Instr.next, hk]

theorem clear (hl : l ∈ (h c).held) (hn : l ∉ (h c).named) :
    Spins cpu' (update lock l { lock l with locked := false }) (update h c ((Instr.clear l).next (h c))) := by
  have hnamed (d : C) := named_update (h := h) (c := c) (b := (Instr.clear l).next (h c)) rfl d
  have hdepth : ((Instr.clear l).next (h c)).depth = (h c).depth := by
    have := Finset.card_pos.mpr ⟨l, hl⟩
    simp only [Flow.depth, Instr.next, Finset.card_erase_of_mem hl]
    omega
  refine hs.turn hcpu ?_ ?_ (hs.holds.lose (a := l) (fun k => ?_) fun d k => ?_) fun k d => ?_
  · rw [hncli, hs.ncli c, hdepth]
  · rw [hdepth, hiflag]
    exact hs.masked c
  · by_cases hk : k = l
    · subst hk
      simp
    · simp [hk]
  · by_cases hd : d = c
    · subst hd
      simp [Instr.next, and_comm]
    · rw [update_of_ne hd]
      refine (and_iff_left_of_imp fun hk => ?_).symm
      rintro rfl
      exact hd (hs.holds.unique hk hl)
  · rw [hnamed, ← hs.named k d]
    by_cases hk : k = l
    · subst hk
      rw [update_self]
    · rw [update_of_ne hk]

end Steps

end Spins

end Xv6.Locks
