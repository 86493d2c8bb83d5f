import AdvancedXv6.Swap.Pageswap
import Mathlib.Tactic.Ring

/-! `swap_out_if_needed` as a controller: how many pages a call evicts, and what becomes of `T_h` and
`N_pg`, against the update that the README specifies. -/

namespace Xv6.Swap
open Function Effect

variable {im : Image} {k k' : Kernel} {cs : List (Kernel × Kernel)}

def Event.isEvict : Event → Bool
  | .evict _ _ => true
  | _ => false

/-- The pages evicted so far. -/
def Kernel.evictions (k : Kernel) : Nat := k.trail.countP Event.isEvict

/-- The condition under which `swap_out_if_needed` makes a round. -/
def Kernel.Pressed (k : Kernel) : Prop := k.freePagesCount ≤ k.tH

instance (k : Kernel) : Decidable k.Pressed := inferInstanceAs (Decidable (_ ≤ _))

/-! ### One eviction -/

/-- Neither the controller nor the stock of free pages has changed. -/
structure Untouched (k k' : Kernel) : Prop where
  tH : k'.tH = k.tH
  nPg : k'.nPg = k.nPg
  freelist : k'.freelist = k.freelist
  count : k'.freePagesCount = k.freePagesCount
  evictions : k'.evictions = k.evictions

namespace Untouched

theorem refl (k : Kernel) : Untouched k k := ⟨rfl, rfl, rfl, rfl, rfl⟩

theorem trans (k₁ k₂ k₃ : Kernel) (h : Untouched k₁ k₂) (h' : Untouched k₂ k₃) : Untouched k₁ k₃ :=
  ⟨h'.tH.trans h.tH, h'.nPg.trans h.nPg, h'.freelist.trans h.freelist, h'.count.trans h.count,
    h'.evictions.trans h.evictions⟩

theorem ite {α : Type} {c : Prop} [Decidable c] {m n : Kern α} (hm : Within Untouched m)
    (hn : Within Untouched n) : Within Untouched (if c then m else n) := by
  split
  · exact hm
  · exact hn

theorem get_bind {α : Type} {f : Kernel → Kern α} (hf : ∀ k, Within Untouched (f k)) :
    Within Untouched (get >>= f) := .bind trans (.get refl) hf

theorem seq {α β : Type} {m : Kern α} {f : α → Kern β} (hm : Within Untouched m)
    (hf : ∀ a, Within Untouched (f a)) : Within Untouched (m >>= f) := .bind trans hm hf

theorem acquireKmem : Within Untouched acquireKmem :=
  get_bind fun _ => ite (ite (seq (.throw refl _) fun _ => .modify fun _ => ⟨rfl, rfl, rfl, rfl, rfl⟩)
    (.modify fun _ => ⟨rfl, rfl, rfl, rfl, rfl⟩)) (.pure refl ())

theorem releaseKmem : Within Untouched releaseKmem :=
  get_bind fun _ => ite (ite (seq (.throw refl _) fun _ => .modify fun _ => ⟨rfl, rfl, rfl, rfl, rfl⟩)
    (.modify fun _ => ⟨rfl, rfl, rfl, rfl, rfl⟩)) (.pure refl ())

theorem victimLoop (ps : List Nat) (victim : Option Nat) (m : Int) :
    Within Untouched (Swap.victimLoop ps victim m) := by
  induction ps generalizing victim m with
  | nil => exact .pure refl _
  | cons p ps ih =>
    rw [Swap.victimLoop]
    exact get_bind fun k => ite (seq (.modify fun _ => ⟨rfl, rfl, rfl, rfl, rfl⟩) fun _ =>
      get_bind fun _ => ite (ih _ _) (ih _ _)) (ih _ _)

theorem secondChance (d : Nat) (vas : List Nat) : Within Untouched (Swap.secondChance d vas) := by
  induction vas with
  | nil => exact .pure refl _
  | cons va vas ih =>
    rw [Swap.secondChance]
    refine get_bind fun k => ?_
    cases k.walk d va with
    | none => exact ih
    | some q =>
      exact ite ih (ite (.pure refl _) (seq (.modify fun _ => ⟨rfl, rfl, rfl, rfl, rfl⟩) fun _ => ih))

theorem findFreeSlot : Within Untouched findFreeSlot := by
  refine get_bind fun k => ?_
  cases (List.range numSlots).find? (fun i => (k.swapSlots i).isFree) with
  | none => exact .pure refl _
  | some i => exact seq (.modify fun _ => ⟨rfl, rfl, rfl, rfl, rfl⟩) fun _ => .pure refl _

theorem savePerm (slot : Int) (perm : Word) : Within Untouched (savePerm slot perm) := by
  refine .modify fun k => ?_
  split
  · exact refl k
  · exact ⟨rfl, rfl, rfl, rfl, rfl⟩

theorem swapOutBegin : Within Untouched swapOutBegin := by
  refine seq (victimLoop _ _ _) fun victim => ?_
  cases victim with
  | none => exact .throw refl _
  | some v =>
    refine get_bind fun k => seq (secondChance _ _) fun found => get_bind fun k' => ?_
    cases found.or (firstResident k' (k.proc v).pgdir (pagesBelow (k.proc v).sz)) with
    | none => exact .throw refl _
    | some va =>
      dsimp only
      cases k'.walk (k.proc v).pgdir va with
      | none => exact .throw refl _
      | some q =>
        exact seq findFreeSlot fun slot => ite (seq (.throw refl _) fun _ => seq (savePerm _ _) fun _ => .pure refl _)
          (seq (savePerm _ _) fun _ => .pure refl _)

theorem waitDisk : Within Untouched waitDisk := by
  refine get_bind fun k => ?_
  cases k.cur with
  | none => exact .throw refl _
  | some p => exact .modify fun _ => ⟨rfl, rfl, rfl, rfl, rfl⟩

theorem bread (b : Nat) : Within Untouched (bread b) := by
  have hfetch (k : Kernel) : Within Untouched (do
      Swap.waitDisk
      modify fun k => k.useBuf b
      pure (k.disk b) : Kern Block) :=
    seq waitDisk fun _ => seq (.modify fun _ => ⟨rfl, rfl, rfl, rfl, rfl⟩) fun _ => .pure refl _
  exact get_bind fun k => ite (seq (.modify fun _ => ⟨rfl, rfl, rfl, rfl, rfl⟩) fun _ => .pure refl _)
    (ite (seq (.throw refl _) fun _ => hfetch k) (hfetch k))

theorem bwrite (b : Nat) (data : Block) : Within Untouched (bwrite b data) :=
  ite (seq (.throw refl _) fun _ => seq (.modify fun _ => ⟨rfl, rfl, rfl, rfl, rfl⟩) fun _ => waitDisk)
    (seq (.modify fun _ => ⟨rfl, rfl, rfl, rfl, rfl⟩) fun _ => waitDisk)

theorem writeToSwap (f : Nat) (slot : Int) : Within Untouched (writeToSwap f slot) :=
  .forEach refl trans (fun _ => seq (bread _) fun _ => get_bind fun _ => bwrite _ _) _

end Untouched

/-- `n` pages went to the swap area, and their frames to the free list. -/
structure Evicts (n : Nat) (k k' : Kernel) : Prop where
  tH : k'.tH = k.tH
  nPg : k'.nPg = k.nPg
  evictions : k'.evictions = k.evictions + n
  freed : k'.freelist.length = k.freelist.length + n
  count : k'.freePagesCount = k.freePagesCount + n

theorem Untouched.evicts (h : Untouched k k') : Evicts 0 k k' :=
  ⟨h.tH, h.nPg, h.evictions, by rw [h.freelist, Nat.add_zero], by rw [h.count]; simp⟩

theorem Evicts.trans {n m : Nat} {k₁ k₂ k₃ : Kernel} (h : Evicts n k₁ k₂) (h' : Evicts m k₂ k₃) :
    Evicts (n + m) k₁ k₃ where
  tH := h'.tH.trans h.tH
  nPg := h'.nPg.trans h.nPg
  evictions := by rw [h'.evictions, h.evictions, Nat.add_assoc]
  freed := by rw [h'.freed, h.freed, Nat.add_assoc]
  count := by rw [h'.count, h.count]; push_cast; ring

theorem kfree_evicts {f : Nat} :
    wp (kfree im f) k (fun _ t => t.tH = k.tH ∧ t.nPg = k.nPg ∧ t.evictions = k.evictions ∧
      t.freelist.length = k.freelist.length + 1 ∧ t.freePagesCount = k.freePagesCount + 1) fun _ _ => True := by
  unfold kfree
  rw [wp_ite]
  refine ⟨fun _ => by simp, fun _ => ?_⟩
  rw [wp_bind, wp_modify]
  refine wp_seq (wp_mono (Untouched.acquireKmem _) (fun _ t ht => ht) fun _ _ _ => trivial) fun _ t ht => ?_
  rw [wp_bind, wp_modify]
  refine wp_mono (Untouched.releaseKmem _) (fun _ u hu => ?_) fun _ _ _ => trivial
  refine ⟨hu.tH.trans ht.tH, hu.nPg.trans ht.nPg, hu.evictions.trans ht.evictions, ?_, ?_⟩
  · rw [hu.freelist, List.length_cons, ht.freelist]
    rfl
  · rw [hu.count, ← show t.freePagesCount = k.freePagesCount from ht.count]

theorem swapOutOnePage_evicts :
    wp (swapOutOnePage im) k (fun _ t => Evicts 1 k t) fun _ _ => True := by
  unfold swapOutOnePage
  refine wp_seq (wp_mono (Untouched.swapOutBegin _) (fun _ t ht => ht) fun _ _ _ => trivial) fun ev t ht => ?_
  refine wp_seq (wp_mono (Untouched.writeToSwap _ _ _) (fun _ u hu => hu) fun _ _ _ => trivial) fun _ u hu => ?_
  rw [swapOutEnd, wp_bind, wp_modify]
  refine wp_mono kfree_evicts (fun _ v hv => ?_) fun _ _ _ => trivial
  obtain ⟨h₁, h₂, h₃, h₄, h₅⟩ := hv
  have hone : u.evictions + 1 = (u.record (.evict ev.dir ev.va)).evictions := by
    rw [Kernel.evictions, Kernel.evictions, Kernel.record, Kernel.log, List.singleton_append, List.countP_cons_of_pos rfl]
  have hlast : Evicts 1 u v := ⟨h₁, h₂, h₃.trans hone.symm, h₄, h₅⟩
  have hall := (ht.evicts.trans hu.evicts).trans hlast
  simpa only [Nat.zero_add] using hall

/-! ### One call -/

/-- A value of a 32-bit `int`. -/
def FitsInt (x : Int) : Prop := -2 ^ 31 ≤ x ∧ x < 2 ^ 31

/-- The values that the two assignments of `swap_out_if_needed` compute, in the order of the source. -/
def intermediates (im : Image) (k : Kernel) : List Int :=
  [k.tH * im.beta, (k.tH * im.beta).tdiv 100, k.tH - (k.tH * im.beta).tdiv 100,
    k.nPg * im.alpha, (k.nPg * im.alpha).tdiv 100, k.nPg + (k.nPg * im.alpha).tdiv 100]

/-- `T_h` and `N_pg` after a round, as the README has them. -/
def specTh (im : Image) (k : Kernel) : Int := k.tH * (100 - im.beta) / 100
def specNPg (im : Image) (k : Kernel) : Int := min limit (k.nPg * (100 + im.alpha) / 100)

/-- The ranges of `T_h` and `N_pg`. -/
structure Tuned (k : Kernel) : Prop where
  tH_nonneg : 0 ≤ k.tH
  tH_le : k.tH ≤ (2 ^ 31 - 1) / 100
  nPg_pos : 0 < k.nPg
  nPg_le : k.nPg ≤ limit

/-- What is due from a call that takes `k` to `k'`. -/
structure Specified (im : Image) (k k' : Kernel) : Prop where
  evicts : k'.evictions = k.evictions + if k.Pressed then k.nPg.toNat else 0
  freed : k'.freelist.length = k.freelist.length + if k.Pressed then k.nPg.toNat else 0
  tH : k'.tH = if k.Pressed then specTh im k else k.tH
  nPg : k'.nPg = if k.Pressed then specNPg im k else k.nPg
  tH_anti : 0 ≤ k'.tH ∧ k'.tH ≤ k.tH
  nPg_mono : k.nPg ≤ k'.nPg ∧ k'.nPg ≤ limit
  fits : k.Pressed → ∀ x ∈ intermediates im k, FitsInt x

theorem getFreePages_count :
    wp getFreePages k (fun r t => r = k.freePagesCount ∧ Untouched k t) fun _ _ => True := by
  unfold getFreePages
  refine wp_seq (wp_mono (Untouched.acquireKmem _) (fun _ t ht => ht) fun _ _ _ => trivial) fun _ t ht => ?_
  rw [wp_bind, wp_get]
  refine wp_seq (wp_mono (Untouched.releaseKmem _) (fun _ u hu => hu) fun _ _ _ => trivial) fun _ u hu => ?_
  exact (wp_pure _).mpr ⟨ht.count, ht.trans _ _ _ hu⟩

theorem swapOutIfNeeded_evicts :
    wp (swapOutIfNeeded im) k (fun _ t => (k.Pressed → ∃ u, Evicts k.nPg.toNat k u ∧ t = adapt im u) ∧
      (¬k.Pressed → Untouched k t)) fun _ _ => True := by
  unfold swapOutIfNeeded
  refine wp_seq getFreePages_count fun r t ht => ?_
  obtain ⟨rfl, ht⟩ := ht
  rw [wp_bind, wp_get, wp_ite, ht.tH, ht.nPg]
  refine ⟨fun hp => ?_, fun hp => (wp_pure _).mpr ⟨fun h => absurd h hp, fun _ => ht⟩⟩
  -- the invariant counts the evictions still to come
  refine wp_seq (wp_times (I := fun r s => ∃ m, m + r = k.nPg.toNat ∧ Evicts m k s) (fun r s hs => ?_)
    k.nPg.toNat ⟨0, Nat.zero_add _, ht.evicts⟩) fun _ u hu => ?_
  · obtain ⟨m, hm, hs⟩ := hs
    exact wp_mono swapOutOnePage_evicts (fun _ v hv => ⟨m + 1, by omega, hs.trans hv⟩) fun _ _ he => he
  · obtain ⟨m, rfl, hu⟩ := hu
    exact (wp_modify _).mpr ⟨fun _ => ⟨u, hu, rfl⟩, fun h => absurd hp h⟩

section Arithmetic
variable {t n a b : Int}

/-- The quotient that is subtracted, rounded down, leaves the difference rounded up. -/
theorem sub_share_eq_iff : t - t * b / 100 = t * (100 - b) / 100 ↔ 100 ∣ t * b := by
  have hsplit : t * (100 - b) = t * 100 - t * b := by ring
  rw [hsplit]
  generalize t * b = x
  omega

theorem add_share_eq : n + n * a / 100 = n * (100 + a) / 100 := by
  have hsplit : n * (100 + a) = n * 100 + n * a := by ring
  rw [hsplit]
  generalize n * a = x
  omega

end Arithmetic

namespace Tuned

theorem shares (h : Tuned k) (im : Image) : 0 ≤ k.tH * im.beta ∧ k.tH * im.beta ≤ k.tH * 100 ∧
    0 ≤ k.nPg * im.alpha ∧ k.nPg * im.alpha ≤ k.nPg * 100 := by
  have hb : (im.beta : Int) ≤ 100 := by exact_mod_cast im.beta_le
  have ha : (im.alpha : Int) ≤ 100 := by exact_mod_cast im.alpha_le
  exact ⟨Int.mul_nonneg h.tH_nonneg (Int.natCast_nonneg _), Int.mul_le_mul_of_nonneg_left hb h.tH_nonneg,
    Int.mul_nonneg (Int.le_of_lt h.nPg_pos) (Int.natCast_nonneg _),
    Int.mul_le_mul_of_nonneg_left ha (Int.le_of_lt h.nPg_pos)⟩

theorem adapt_tH (h : Tuned k) : (adapt im k).tH = k.tH - k.tH * im.beta / 100 := by
  rw [adapt, Int.tdiv_eq_ediv_of_nonneg (h.shares im).1]

theorem adapt_nPg (h : Tuned k) : (adapt im k).nPg = specNPg im k := by
  rw [adapt, Int.tdiv_eq_ediv_of_nonneg (h.shares im).2.2.1, specNPg, add_share_eq]

theorem adapt_range (h : Tuned k) (im : Image) : (0 ≤ (adapt im k).tH ∧ (adapt im k).tH ≤ k.tH) ∧
    k.nPg ≤ (adapt im k).nPg ∧ (adapt im k).nPg ≤ limit := by
  obtain ⟨hb₀, hb, ha₀, -⟩ := h.shares im
  have hn := h.nPg_le
  rw [h.adapt_tH, h.adapt_nPg, specNPg, ← add_share_eq]
  generalize k.tH * im.beta = x at *
  generalize k.nPg * im.alpha = y at *
  omega

theorem fits (h : Tuned k) : ∀ x ∈ intermediates im k, FitsInt x := by
  obtain ⟨hb₀, hb, ha₀, ha⟩ := h.shares im
  have hle : k.nPg ≤ 100 := h.nPg_le
  have hpos := h.nPg_pos
  have hnn := h.tH_nonneg
  have ht := h.tH_le
  unfold intermediates FitsInt
  rw [Int.tdiv_eq_ediv_of_nonneg hb₀, Int.tdiv_eq_ediv_of_nonneg ha₀]
  generalize k.tH * im.beta = x at *
  generalize k.nPg * im.alpha = y at *
  simp only [List.mem_cons, List.not_mem_nil, or_false]
  rintro z (rfl | rfl | rfl | rfl | rfl | rfl) <;> omega

end Tuned

/-- What a call does whatever the remainders are. -/
theorem Tuned.called (h : Tuned k) (hcall : swapOutIfNeeded im k = .ok () k') : Tuned k' ∧
    (Specified im k k' ↔ (k.Pressed → 100 ∣ k.tH * im.beta)) := by
  obtain ⟨hround, hidle⟩ := wp_ok swapOutIfNeeded_evicts hcall
  by_cases hp : k.Pressed
  · obtain ⟨u, hu, rfl⟩ := hround hp
    have hut : Tuned u := ⟨hu.tH ▸ h.tH_nonneg, hu.tH ▸ h.tH_le, hu.nPg ▸ h.nPg_pos, hu.nPg ▸ h.nPg_le⟩
    obtain ⟨htH, hnPg⟩ := hut.adapt_range im
    rw [hu.tH] at htH
    rw [hu.nPg] at hnPg
    refine ⟨⟨htH.1, htH.2.trans h.tH_le, Int.lt_of_lt_of_le h.nPg_pos hnPg.1, hnPg.2⟩, fun hs _ => ?_, fun hdvd => ?_⟩
    · have heq := hs.tH
      rw [if_pos hp, hut.adapt_tH, hu.tH] at heq
      exact sub_share_eq_iff.mp heq
    · exact {
        evicts := by rw [if_pos hp]; exact hu.evictions
        freed := by rw [if_pos hp]; exact hu.freed
        tH := by rw [if_pos hp, hut.adapt_tH, hu.tH]; exact sub_share_eq_iff.mpr (hdvd hp)
        nPg := by rw [if_pos hp, hut.adapt_nPg, specNPg, specNPg, hu.nPg]
        tH_anti := htH
        nPg_mono := hnPg
        fits := fun _ => h.fits }
  · have hu := hidle hp
    refine ⟨⟨hu.tH ▸ h.tH_nonneg, hu.tH ▸ h.tH_le, hu.nPg ▸ h.nPg_pos, hu.nPg ▸ h.nPg_le⟩,
      fun _ hpr => absurd hpr hp, fun _ => ?_⟩
    exact {
      evicts := by rw [if_neg hp, hu.evictions, Nat.add_zero]
      freed := by rw [if_neg hp, hu.freelist, Nat.add_zero]
      tH := by rw [if_neg hp, hu.tH]
      nPg := by rw [if_neg hp, hu.nPg]
      tH_anti := ⟨hu.tH ▸ h.tH_nonneg, Int.le_of_eq hu.tH⟩
      nPg_mono := ⟨Int.le_of_eq hu.nPg.symm, hu.nPg ▸ h.nPg_le⟩
      fits := fun hpr => absurd hpr hp }

/-! ### Runs of calls -/

/-- From the first state, calls of `swap_out_if_needed` with anything in between that leaves `T_h` and
`N_pg` alone; no other function assigns them. Each call is kept with the states before and after it. -/
inductive Calls (im : Image) (k : Kernel) : List (Kernel × Kernel) → Kernel → Prop
  | start : Calls im k [] k
  | other {cs k₁ k₂} (h : Calls im k cs k₁) (htH : k₂.tH = k₁.tH) (hnPg : k₂.nPg = k₁.nPg) : Calls im k cs k₂
  | call {cs k₁ k₂} (h : Calls im k cs k₁) (hcall : swapOutIfNeeded im k₁ = .ok () k₂) :
      Calls im k ((k₁, k₂) :: cs) k₂

theorem Calls.tuned (hr : Calls im k cs k') (h : Tuned k) : Tuned k' ∧
    ∀ c ∈ cs, Tuned c.1 ∧ swapOutIfNeeded im c.1 = .ok () c.2 := by
  induction hr with
  | start => exact ⟨h, by simp⟩
  | other _ htH hnPg ih =>
    exact ⟨⟨htH ▸ ih.1.tH_nonneg, htH ▸ ih.1.tH_le, hnPg ▸ ih.1.nPg_pos, hnPg ▸ ih.1.nPg_le⟩, ih.2⟩
  | call _ hcall ih =>
    refine ⟨(ih.1.called hcall).1, fun c hc => ?_⟩
    rcases List.mem_cons.mp hc with rfl | hc
    · exact ⟨ih.1, hcall⟩
    · exact ih.2 c hc

/-- Every call of a run does what is specified, if and only if each that makes a round starts with a
multiple of a hundred for `T_h * beta`. -/
theorem controller_iff (h : Tuned k) (hr : Calls im k cs k') :
    (∀ c ∈ cs, Specified im c.1 c.2) ↔ ∀ c ∈ cs, c.1.Pressed → 100 ∣ c.1.tH * im.beta :=
  forall₂_congr fun c hc =>
    have hone := (hr.tuned h).2 c hc
    (hone.1.called hone.2).2

/-- A kernel of which one process with one page runs, with no free frame and the given `T_h` and `N_pg`. -/
def starved (t n : Int) : Kernel where
  mem f i := if f = 300 ∧ i = 0 then mapEntry 301 7 else if f = 301 ∧ i = 0 then mapEntry 302 7 else 0
  disk _ _ := 0
  bufs := []
  useLock := true
  kmemLocked := false
  freelist := []
  freePagesCount := 0
  tH := t
  nPg := n
  swapSlots _ := ⟨0, true⟩
  proc i := ⟨if i = 0 then pgSize else 0, 300, 303, if i = 0 then .running else .unused, 1, none, false, 0⟩
  nextpid := 2
  initproc := 0
  pipes := []
  kpgdir := 304
  cur := some 0
  cr3 := 300
  tlb _ := []
  trail := []

/-- The `ALPHA` and `BETA` of the Makefile. -/
def shipped : Image where
  data := 257
  kend := 258
  alpha := 25
  beta := 10
  link_lt_data := by decide
  data_lt_kend := by decide
  kend_le := by decide
  alpha_le := by decide
  beta_le := by decide

theorem starved_tuned : Tuned (starved 1 1) := ⟨by decide, by decide, by decide, by decide⟩

theorem starved_returns : ∃ k', swapOutIfNeeded shipped (starved 1 1) = .ok () k' ∧ k'.tH = 1 := by
  have hrun : (match swapOutIfNeeded shipped (starved 1 1) with
    | .ok _ t => decide (t.tH = 1)
    | .error _ _ => false) = true := by decide +kernel
  cases hcall : swapOutIfNeeded shipped (starved 1 1) with
  | ok _ t =>
    rw [hcall] at hrun
    exact ⟨t, rfl, of_decide_eq_true hrun⟩
  | error _ _ =>
    rw [hcall] at hrun
    cases hrun

/-- `T_h` stays 1 where the README has it become 0. -/
theorem round_rounds_up : ∃ k', Tuned (starved 1 1) ∧
    Calls shipped (starved 1 1) [(starved 1 1, k')] k' ∧ ¬Specified shipped (starved 1 1) k' := by
  obtain ⟨k', hcall, htH⟩ := starved_returns
  refine ⟨k', starved_tuned, .call .start hcall, fun hs => ?_⟩
  have hpressed : (starved 1 1).Pressed := by decide
  have heq := hs.tH
  rw [if_pos hpressed, htH] at heq
  exact absurd heq (by decide)

theorem controller_iff_starved : ∃ k', (∀ c ∈ [(starved 1 1, k')], Specified shipped c.1 c.2) ↔
    ∀ c ∈ [(starved 1 1, k')], c.1.Pressed → 100 ∣ c.1.tH * shipped.beta := by
  obtain ⟨k', hcall, -⟩ := starved_returns
  exact ⟨k', controller_iff starved_tuned (.call .start hcall)⟩

end Xv6.Swap
