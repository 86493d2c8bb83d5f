import AdvancedXv6.Lib.Counting
import AdvancedXv6.Swap.SwapOutSpec

/-! The figures that decide what `kalloc` does: free pages, thresholds, free slots and the pages that
can be evicted. A call succeeds exactly when they allow it. -/

namespace Xv6.Swap
open Function Effect Ownership Counting

variable {im : Image} {k k₀ k' s : Kernel} {H : Held} {d f n p v pg : Nat} {X : Nat → Nat → Prop}
  {E : Panic → Kernel → Prop}

structure Stock where
  free : Int
  tH : Int
  nPg : Int
  slots : Nat
  resident : Nat

namespace Stock
variable (im : Image) (s : Stock)

/-- No round of evictions is due, or there are slots and pages enough for it. -/
def Allows : Prop := s.tH < s.free ∨ (s.nPg.toNat ≤ s.slots ∧ s.nPg.toNat ≤ s.resident)

/-- After `r` evictions. -/
def evicted (r : Nat) : Stock :=
  { s with free := s.free + r, slots := s.slots - r, resident := s.resident - r }

/-- After a round of evictions, with the thresholds adapted. -/
def relieved : Stock :=
  { s.evicted s.nPg.toNat with
    tH := s.tH - (s.tH * im.beta).tdiv 100
    nPg := min limit (s.nPg + (s.nPg * im.alpha).tdiv 100) }

/-- One page less. -/
def taken : Stock := { s with free := s.free - 1 }

def spent : Stock := if s.tH < s.free then s.taken else (s.relieved im).taken

/-- The figures allow `n` calls of `kalloc` one after the other. -/
def Affords : Nat → Stock → Prop
  | 0, _ => True
  | n + 1, s => s.Allows ∧ Affords n (s.spent im)

end Stock

namespace Kernel
variable (k : Kernel)

def freeSlots : Nat := (List.range numSlots).countP fun n => (k.swapSlots n).isFree

/-- The pages in memory of the processes that may lose pages. -/
def residents : Nat :=
  ∑ i ∈ Finset.range nProc, if Evictable (k.proc i).state then k.countResident (k.proc i) else 0

def stock : Stock := ⟨k.freePagesCount, k.tH, k.nPg, k.freeSlots, k.residents⟩

end Kernel

/-! ### Slots and pages -/

theorem freeSlots_eq_zero : k.freeSlots = 0 ↔ k.NoSlot := by
  rw [Kernel.freeSlots, List.countP_eq_zero]
  simp only [List.mem_range, Bool.not_eq_true, Kernel.NoSlot]

theorem countResident_eq_zero {pr : Proc} :
    k.countResident pr = 0 ↔ ∀ va ∈ pagesBelow pr.sz, ¬k.Resident pr.pgdir va := by
  rw [Kernel.countResident, List.countP_eq_zero]
  simp only [decide_eq_true_eq]

theorem residents_eq_zero : k.residents = 0 ↔ k.NoPage := by
  rw [Kernel.residents, Finset.sum_eq_zero_iff]
  simp only [Finset.mem_range, ite_eq_right_iff, countResident_eq_zero, Kernel.NoPage]

theorem resident_iff_in (hpg : pg < userPages) : k.Resident d (pg * pgSize) ↔ k.In d pg := by
  have hva : pg * pgSize < 2 ^ 32 := by
    rw [userPages] at hpg
    rw [pgSize]
    omega
  rw [Kernel.resident_iff hva, Nat.mul_div_cancel _ (by decide)]
  exact Iff.rfl

theorem countResident_eq {pr : Proc} : k.countResident pr =
    (List.range (pageCount pr.sz)).countP fun pg => k.Resident pr.pgdir (pg * pgSize) := by
  rw [Kernel.countResident, pagesBelow, List.countP_map]
  rfl

/-- Counted alike: the same pages below the size are in memory. -/
theorem countResident_congr {pr pr' : Proc} (hdir : pr'.pgdir = pr.pgdir) (hsz : pr'.sz = pr.sz)
    (hle : pr.sz ≤ kernBase) (hin : ∀ pg, pg < pageCount pr.sz → (k'.In pr.pgdir pg ↔ k.In pr.pgdir pg)) :
    k'.countResident pr' = k.countResident pr := by
  rw [countResident_eq, countResident_eq, hdir, hsz]
  refine List.countP_congr fun pg hpg => ?_
  have hlt := List.mem_range.mp hpg
  have hu : pg < userPages := Nat.lt_of_lt_of_le hlt (pageCount_le hle)
  simp only [decide_eq_true_eq, resident_iff_in hu]
  exact hin pg hlt

/-- Nothing that counts has changed. -/
theorem stock_eq (h : Wf im k H) (hcalm : Calm k k') (hcount : k'.freePagesCount = k.freePagesCount)
    (htH : k'.tH = k.tH) (hnPg : k'.nPg = k.nPg)
    (hslots : ∀ n, (k'.swapSlots n).isFree = (k.swapSlots n).isFree)
    (hin : ∀ i, i < nProc → Evictable (k.proc i).state → ∀ pg, pg < pageCount (k.proc i).sz →
      (k'.In (k.proc i).pgdir pg ↔ k.In (k.proc i).pgdir pg)) : k'.stock = k.stock := by
  have hfree : k'.freeSlots = k.freeSlots := by
    rw [Kernel.freeSlots, Kernel.freeSlots]
    simp only [hslots]
  have hres : k'.residents = k.residents := by
    rw [Kernel.residents, Kernel.residents]
    refine Finset.sum_congr rfl fun i hi => ?_
    have hlt := Finset.mem_range.mp hi
    rw [hcalm.state]
    by_cases hev : Evictable (k.proc i).state
    · rw [if_pos hev, if_pos hev]
      exact countResident_congr (hcalm.pgdir i) (hcalm.sz i) (h.sane.size i hlt (.inl hev)) (hin i hlt hev)
    · rw [if_neg hev, if_neg hev]
  rw [Kernel.stock, Kernel.stock, hcount, htH, hnPg, hfree, hres]

theorem OnlyRss.figures (hr : OnlyRss k k') (h : Wf im k H) : k'.stock = k.stock :=
  stock_eq h hr.calm hr.stock.count hr.stock.tH hr.stock.nPg (fun _ => by rw [hr.stock.slots])
    fun i hi hev _ hpg => (hr.still H).in_iff ⟨_, h.sane.dir_proc hi hev⟩
      (lt_tablePages (Nat.lt_of_lt_of_le hpg (pageCount_le (h.sane.size i hi (.inl hev)))))

/-- Filling a page that nothing refers to. -/
theorem stock_fill (h : Wf im k (H.hold (.frame f))) (p : Page) : (k.setPage f p).stock = k.stock :=
  stock_eq h (.of_eq rfl rfl rfl rfl rfl rfl rfl rfl) rfl rfl rfl (fun _ => rfl) fun i hi hev _ hpg =>
    (still_fill h.acc p).in_iff ⟨_, (h.sane.held (G := H) rfl rfl).dir_proc hi hev⟩
      (lt_tablePages (Nat.lt_of_lt_of_le hpg (pageCount_le (h.sane.size i hi (.inl hev)))))

/-- The counts read the slots, the entries and the process table. -/
theorem counts_eq (hslots : k'.swapSlots = k.swapSlots) (hmem : k'.mem = k.mem) (hproc : k'.proc = k.proc) :
    k'.freeSlots = k.freeSlots ∧ k'.residents = k.residents := by
  have hres (d va : Nat) : k'.Resident d va ↔ k.Resident d va := by
    simp only [Kernel.Resident, Kernel.walk, Kernel.load, hmem]
  refine ⟨by rw [Kernel.freeSlots, Kernel.freeSlots, hslots], ?_⟩
  rw [Kernel.residents, Kernel.residents, hproc]
  simp only [Kernel.countResident, hres]

-- the sums are not to be evaluated
attribute [irreducible] Kernel.freeSlots Kernel.residents

/-! ### One eviction -/

section Evicted
variable {k' : Kernel} {v pg n f : Nat} (h : Wf im k H) (he : Evicted im k k' H v pg n f)
include he

theorem Evicted.freeSlots : k'.freeSlots + 1 = k.freeSlots := by
  have hne (m : Nat) (hm : m ≠ n) : (k'.swapSlots m).isFree = (k.swapSlots m).isFree := by
    rw [Bool.eq_iff_iff, he.slots m]
    simp only [ne_eq, hm, not_false_eq_true, true_and]
  have hn : (k'.swapSlots n).isFree = false := by
    rw [← Bool.not_eq_true, he.slots n]
    exact fun hx => hx.1 rfl
  have hlt := he.wasFree.1
  unfold Kernel.freeSlots
  generalize numSlots = N at hlt
  have := countP_range_change (p := fun m => (k.swapSlots m).isFree)
    (q := fun m => (k'.swapSlots m).isFree) (fun m _ => hne m) hlt
  rw [hn, he.wasFree.2] at this
  exact this

include h

theorem Evicted.residents : k'.residents + 1 = k.residents := by
  have hv := he.evictable
  have hcalm := he.quiet.calm
  have hlive {i : Nat} (hi : i < nProc) (hev : Evictable (k.proc i).state) : k.Live H (k.proc i).pgdir :=
    ⟨_, h.sane.dir_proc hi hev⟩
  have hsz {i : Nat} (hi : i < nProc) (hev : Evictable (k.proc i).state) : (k.proc i).sz ≤ kernBase :=
    h.sane.size i hi (.inl hev)
  have hother (i : Nat) (hi : i < nProc) (hne : i ≠ v) (hev : Evictable (k.proc i).state) :
      k'.countResident (k'.proc i) = k.countResident (k.proc i) := by
    refine countResident_congr (hcalm.pgdir i) (hcalm.sz i) (hsz hi hev) fun x hx => ?_
    rw [he.out _ x (hlive hi hev) (Nat.lt_of_lt_of_le hx (pageCount_le (hsz hi hev)))]
    refine and_iff_left fun hsame => hne ?_
    have := h.acc.exact.unique (r := .dir (.proc i)) (s := .dir (.proc v)) ⟨_, h.sane.dir_proc hi hev, rfl⟩
      ⟨_, h.sane.dir_proc he.lt hv, by rw [hsame.1]⟩
    cases this
    rfl
  have hself : k'.countResident (k'.proc v) + 1 = k.countResident (k.proc v) := by
    rw [countResident_eq, countResident_eq, hcalm.pgdir, hcalm.sz]
    have hu {x : Nat} (hx : x < pageCount (k.proc v).sz) : x < userPages :=
      Nat.lt_of_lt_of_le hx (pageCount_le (hsz he.lt hv))
    have := countP_range_change (p := fun x => decide (k.Resident (k.proc v).pgdir (x * pgSize)))
      (q := fun x => decide (k'.Resident (k.proc v).pgdir (x * pgSize))) (fun x hx hne => ?_) he.below
    · simp only [resident_iff_in (hu he.below), he.out _ pg (hlive he.lt hv) (hu he.below), he.wasIn,
        and_self, not_true_eq_false, and_false, decide_false, decide_true] at this
      exact this
    · rw [decide_eq_decide, resident_iff_in (hu hx), resident_iff_in (hu hx),
        he.out _ x (hlive he.lt hv) (hu hx)]
      exact and_iff_left fun hsame => hne hsame.2
  have := sum_change (s := Finset.range nProc)
    (f := fun i => if Evictable (k.proc i).state then k.countResident (k.proc i) else 0)
    (g := fun i => if Evictable (k'.proc i).state then k'.countResident (k'.proc i) else 0)
    (fun i hi hne => ?_) (Finset.mem_range.mpr he.lt)
  · rw [hcalm.state, if_pos hv, if_pos hv, ← hself] at this
    unfold Kernel.residents
    omega
  · rw [hcalm.state]
    by_cases hev : Evictable (k.proc i).state
    · rw [if_pos hev, if_pos hev]
      exact hother i (Finset.mem_range.mp hi) hne hev
    · rw [if_neg hev, if_neg hev]

theorem Evicted.stock : k'.stock = k.stock.evicted 1 := by
  have hs := he.freeSlots
  have hr := he.residents h
  rw [Kernel.stock, Kernel.stock, Stock.evicted]
  simp only [he.count, he.tH, he.nPg, Stock.mk.injEq, Nat.cast_one, true_and]
  omega

end Evicted

/-! ### A round of evictions, and `kalloc` -/

/-- The panics of an eviction. -/
def Exhausted (e : Panic) : Prop := e = .noVictimPage ∨ e = .incorrectBlockno

theorem still_adapt : Still k (adapt im k) H where
  calm := .of_eq rfl rfl rfl rfl rfl rfl rfl rfl
  frames _ _ _ _ := rfl
  slots _ _ _ _ := ⟨rfl, rfl⟩

theorem Wf.adapt (h : Wf im k H) : Wf im (adapt im k) H where
  acc := still_adapt.sameTables.accounted h.acc rfl rfl fun _ => rfl
  sane :=
    { h.sane with
      tH_nonneg := by
        have hb : (im.beta : Int) ≤ 100 := by exact_mod_cast im.beta_le
        have hle : k.tH * im.beta ≤ k.tH * 100 := Int.mul_le_mul_of_nonneg_left hb h.sane.tH_nonneg
        have hnn : 0 ≤ k.tH * im.beta := Int.mul_nonneg h.sane.tH_nonneg (Int.natCast_nonneg _)
        show 0 ≤ k.tH - (k.tH * im.beta).tdiv 100
        rw [Int.tdiv_eq_ediv_of_nonneg hnn]
        omega
      nPg_ge := by
        have hn := h.sane.nPg_ge
        have hnn : 0 ≤ k.nPg * im.alpha := Int.mul_nonneg (by omega) (Int.natCast_nonneg _)
        show 4 ≤ min limit (k.nPg + (k.nPg * im.alpha).tdiv 100)
        rw [Int.tdiv_eq_ediv_of_nonneg hnn, limit]
        omega
      nPg_le := Int.min_le_left _ _
      perm := h.sane.perm
      upper := h.sane.upper
      gone := h.sane.gone
      run := h.sane.run }

theorem Evicted.step {f : Nat} (h : Evicted im k k' H v pg n f) (hq : Quiet noPage k₀ k H) :
    Quiet noPage k₀ k' H ∧ k'.freelist ≠ [] := by
  refine ⟨hq.trans h.quiet, ?_⟩
  rw [h.freelist]
  exact List.cons_ne_nil _ _

theorem Stock.evicted_zero (s : Stock) : s.evicted 0 = s := by
  simp [Stock.evicted]

theorem Stock.evicted_succ (s : Stock) (r : Nat) : (s.evicted r).evicted 1 = s.evicted (r + 1) := by
  simp only [Stock.evicted, Nat.sub_sub, Nat.cast_add, Nat.cast_one, Int.add_assoc]

/-- `N` evictions: each takes a slot and a page, and leaves a free page. -/
theorem evictions_spec (h : Wf im k H) (hp : k.cur = some p) (N : Nat) :
    wp (times N (swapOutOnePage im)) k
      (fun _ k' => Wf im k' H ∧ Quiet noPage k k' H ∧ (0 < N → k'.freelist ≠ []) ∧
        (N ≤ k.stock.slots ∧ N ≤ k.stock.resident) ∧ k'.stock = k.stock.evicted N)
      (fun e _ => Exhausted e ∧ ¬(N ≤ k.stock.slots ∧ N ≤ k.stock.resident)) := by
  refine wp_mono (wp_times (I := fun r s => Wf im s H ∧ Quiet noPage k s H ∧
    (r < N → s.freelist ≠ []) ∧ r ≤ N ∧ (N - r ≤ k.stock.slots ∧ N - r ≤ k.stock.resident) ∧
    s.stock = k.stock.evicted (N - r)) (fun r s hs => ?_) N
    ⟨h, .refl k H, fun hlt => absurd hlt (Nat.lt_irrefl N), Nat.le_refl N, by omega, ?_⟩)
    (fun _ s hs => ?_) (fun _ _ he => he)
  · obtain ⟨hw, hq, -, hle, hroom, hstock⟩ := hs
    have hslots : s.freeSlots = k.stock.slots - (N - (r + 1)) := congrArg Stock.slots hstock
    have hpages : s.residents = k.stock.resident - (N - (r + 1)) := congrArg Stock.resident hstock
    refine wp_mono (swapOutOnePage_spec hw (hq.calm.cur.trans hp)) (fun _ t hpost => ?_)
      (fun e _ he => ?_)
    · obtain ⟨v, pg, n, f, ht⟩ := hpost
      obtain ⟨hq', hne⟩ := ht.step hq
      have h₁ := ht.freeSlots
      have h₂ := ht.residents hw
      refine ⟨ht.wf, hq', fun _ => hne, by omega, by omega, ?_⟩
      rw [ht.stock hw, hstock, Stock.evicted_succ]
      congr 1
      omega
    · rcases he with ⟨rfl, hno⟩ | ⟨rfl, hno⟩
      · have := residents_eq_zero.mpr hno
        exact ⟨.inl rfl, by omega⟩
      · have := freeSlots_eq_zero.mpr hno
        exact ⟨.inr rfl, by omega⟩
  · rw [Nat.sub_self, Stock.evicted_zero]
  · obtain ⟨hw, hq, hne, -, hroom, hstock⟩ := hs
    exact ⟨hw, hq, hne, hroom, hstock⟩

theorem stock_adapt {r : Stock} (h : s.stock = r) :
    (adapt im s).stock = { r with
      tH := r.tH - (r.tH * im.beta).tdiv 100
      nPg := min limit (r.nPg + (r.nPg * im.alpha).tdiv 100) } := by
  obtain ⟨hs, hr⟩ : (adapt im s).freeSlots = s.freeSlots ∧ (adapt im s).residents = s.residents :=
    counts_eq rfl rfl rfl
  subst h
  rw [Kernel.stock, hs, hr]
  rfl

/-- `swap_out_if_needed` makes a round when the free pages are at the threshold. -/
theorem swapOutIfNeeded_stock (h : Wf im k H) (hp : k.cur = some p) :
    wp (swapOutIfNeeded im) k
      (fun _ k' => Wf im k' H ∧ Quiet noPage k k' H ∧ k.stock.Allows ∧
        (k.freePagesCount ≤ k.tH → k'.freelist ≠ [] ∧ k'.stock = k.stock.relieved im) ∧
        (k.tH < k.freePagesCount → k' = k))
      (fun e _ => Exhausted e ∧ ¬k.stock.Allows) := by
  rw [swapOutIfNeeded, wp_bind, wp_getFreePages h.sane.unlocked]
  simp only [wp_bind, wp_get, wp_ite, wp_modify, wp_pure]
  refine ⟨fun hle => ?_, fun hlt => ⟨h, .refl k H, .inl (Int.not_le.mp hlt), fun hle => absurd hle hlt,
    fun _ => trivial⟩⟩
  have hpos : 0 < k.nPg.toNat := by
    have := h.sane.nPg_ge
    omega
  refine wp_mono (evictions_spec h hp k.nPg.toNat) (fun _ s hs => ?_) (fun e _ he => ⟨he.1, ?_⟩)
  · obtain ⟨hw, hq, hne, hroom, hstock⟩ := hs
    exact ⟨hw.adapt, hq.trans (still_adapt.quiet_same rfl rfl), .inr hroom,
      fun _ => ⟨hne hpos, stock_adapt hstock⟩, fun hlt => absurd hle (Int.not_le.mpr hlt)⟩
  · rintro (hlt | hroom)
    · exact absurd hle (Int.not_le.mpr hlt)
    · exact he.2 hroom

theorem wp_kalloc_slow {Q : Option Nat → Kernel → Prop}
    (hslow : ¬(k.tH < k.freePagesCount ∧ 0 < k.freePagesCount))
    (h : wp (swapOutIfNeeded im) k (fun _ k' => k'.kmemLocked = false ∧
      ∃ f rest, k'.freelist = f :: rest ∧ Q (some f) (k'.taken rest)) E) :
    wp (kalloc im) k Q E := by
  rw [kalloc, wp_bind, wp_get, wp_ite]
  refine ⟨fun hfast => absurd hfast hslow, fun _ => ?_⟩
  rw [wp_bind]
  refine wp_mono h (fun _ k' hpost => ?_) fun _ _ he => he
  obtain ⟨hl, f, rest, hf, hQ⟩ := hpost
  obtain ⟨_, _, _, useLock, kmemLocked, freelist, _⟩ := k'
  cases hl
  cases hf
  cases useLock <;> simpa [acquireKmem, releaseKmem, Kernel.taken] using hQ

theorem stock_taken {rest : List Nat} : (k.taken rest).stock = k.stock.taken := by
  obtain ⟨hs, hr⟩ : (k.taken rest).freeSlots = k.freeSlots ∧ (k.taken rest).residents = k.residents :=
    counts_eq rfl rfl rfl
  rw [Kernel.stock, hs, hr]
  rfl

theorem spent_fast (h : k.tH < k.freePagesCount) : k.stock.spent im = k.stock.taken := if_pos h

theorem spent_slow (h : k.freePagesCount ≤ k.tH) : k.stock.spent im = (k.stock.relieved im).taken :=
  if_neg (Int.not_lt.mpr h)

/-- `kalloc` returns a page when the figures allow it, and otherwise the kernel stops. -/
theorem kalloc_stock (h : Wf im k H) (hp : k.cur = some p) :
    wp (kalloc im) k
      (fun r k' => ∃ f, r = some f ∧ Wf im k' (H.hold (.frame f)) ∧ Quiet noPage k k' H ∧
        k.stock.Allows ∧ k'.stock = k.stock.spent im)
      (fun e _ => Exhausted e ∧ ¬k.stock.Allows) := by
  have htH := h.sane.tH_nonneg
  by_cases hfast : k.tH < k.freePagesCount ∧ 0 < k.freePagesCount
  · obtain ⟨f, rest, hf⟩ : ∃ f rest, k.freelist = f :: rest := by
      refine List.exists_cons_of_ne_nil fun hnil => ?_
      have := h.acc.count
      rw [hnil] at this
      simp only [List.length_nil, Nat.cast_zero] at this
      omega
    rw [wp_kalloc_fast h.sane.unlocked hfast.1 hfast.2 hf]
    refine ⟨f, rfl, h.taken hf, still_taken.quiet_same rfl rfl, .inl hfast.1, ?_⟩
    rw [stock_taken, spent_fast hfast.1]
  · have hle : k.freePagesCount ≤ k.tH := by omega
    refine wp_kalloc_slow hfast (wp_mono (swapOutIfNeeded_stock h hp)
      (fun _ k' hpost => ?_) fun _ _ he => he)
    obtain ⟨h', hq, hallow, hround, -⟩ := hpost
    obtain ⟨hne, hstock⟩ := hround hle
    obtain ⟨f, rest, hf⟩ := List.exists_cons_of_ne_nil hne
    refine ⟨h'.sane.unlocked, f, rest, hf, f, rfl, h'.taken hf,
      hq.trans (still_taken.quiet_same rfl rfl), hallow, ?_⟩
    rw [stock_taken, hstock, spent_slow hle]

/-! ### Pages for the callers of `kalloc` -/

/-- What the callers of `kalloc` count on: where `A n` holds there are `n` more pages to be had. -/
structure Supply (im : Image) (A : Nat → Kernel → Prop) (E : Panic → Kernel → Prop) : Prop where
  alloc : ∀ {n k H}, Wf im k H → A (n + 1) k → wp (kalloc im) k (fun r k' => ∃ f, r = some f ∧
    Wf im k' (H.hold (.frame f)) ∧ Quiet noPage k k' H ∧ A n k') E
  relieve : ∀ {n k H}, Wf im k H → A (n + 1) k → wp (swapOutIfNeeded im) k (fun _ k' =>
    Wf im k' H ∧ Quiet noPage k k' H ∧ A (n + 1) k') E
  less : ∀ {m n k}, m ≤ n → A n k → A m k
  keep : ∀ {n k k'}, A n k → k'.cur = k.cur → k'.tH = k.tH →
    k'.freePagesCount = k.freePagesCount →
    (∀ d va, .evict d va ∈ k'.trail → .evict d va ∈ k.trail) → A n k'

theorem Supply.same {A : Nat → Kernel → Prop} (h : Supply im A E) (hA : A n k)
    (hcur : k'.cur = k.cur) (htH : k'.tH = k.tH) (hcount : k'.freePagesCount = k.freePagesCount)
    (htrail : k'.trail = k.trail) : A n k' := h.keep hA hcur htH hcount fun _ _ hm => htrail ▸ hm

/-- A process that runs can wait for the disk. -/
def Running (p : Nat) (_ : Nat) (k : Kernel) : Prop := k.cur = some p

/-- There are `n` pages above the threshold, and no eviction is recorded. -/
def Stocked (n : Nat) (k : Kernel) : Prop :=
  k.tH + n < k.freePagesCount ∧ ∀ d va, .evict d va ∉ k.trail

theorem supply_running (im : Image) (p : Nat) :
    Supply im (Running p) (fun e _ => Exhausted e) where
  alloc h hp := by
    refine wp_mono (kalloc_stock h hp) (fun _ _ hpost => ?_) (fun _ _ he => he.1)
    obtain ⟨f, hr, h', hq, -⟩ := hpost
    exact ⟨f, hr, h', hq, hq.calm.cur.trans hp⟩
  relieve h hp := by
    refine wp_mono (swapOutIfNeeded_stock h hp) (fun _ _ hpost => ?_) (fun _ _ he => he.1)
    exact ⟨hpost.1, hpost.2.1, hpost.2.1.calm.cur.trans hp⟩
  less _ hp := hp
  keep hp hcur _ _ _ := hcur.trans hp

theorem supply_stocked (im : Image) : Supply im Stocked (fun _ _ => False) where
  alloc {n k H} h hA := by
    obtain ⟨hlt, htr⟩ := hA
    have hpos : 0 < k.freePagesCount := by
      have := h.sane.tH_nonneg
      omega
    obtain ⟨f, rest, hf⟩ : ∃ f rest, k.freelist = f :: rest := by
      refine List.exists_cons_of_ne_nil fun hnil => ?_
      have := h.acc.count
      rw [hnil] at this
      simp only [List.length_nil, Nat.cast_zero] at this
      omega
    rw [wp_kalloc_fast h.sane.unlocked (by omega) hpos hf]
    refine ⟨f, rfl, h.taken hf, still_taken.quiet_same rfl rfl, ?_, htr⟩
    show k.tH + n < k.freePagesCount - 1
    push_cast at hlt
    omega
  relieve {n k H} h hA := by
    have hlt : ¬k.freePagesCount ≤ k.tH := by
      have := hA.1
      omega
    rw [swapOutIfNeeded, wp_bind, wp_getFreePages h.sane.unlocked, wp_bind, wp_get, if_neg hlt,
      wp_pure]
    exact ⟨h, .refl k H, hA⟩
  less hle hA := ⟨by have := hA.1; omega, hA.2⟩
  keep hA _ htH hcount htrail :=
    ⟨by rw [htH, hcount]; exact hA.1, fun d va hm => hA.2 d va (htrail d va hm)⟩

/-- The part of it that counts each call: `A n` holds where `n` more calls are to come. -/
structure Source (im : Image) (A : Nat → Kernel → Prop) (E : Panic → Kernel → Prop) : Prop where
  alloc : ∀ {n k H}, Wf im k H → A (n + 1) k → wp (kalloc im) k (fun r k' => ∃ f, r = some f ∧
    Wf im k' (H.hold (.frame f)) ∧ Quiet noPage k k' H ∧ A n k') E
  keep : ∀ {n k k'}, A n k → k'.cur = k.cur → k'.stock = k.stock → k'.trail = k.trail → A n k'

theorem Supply.source {A : Nat → Kernel → Prop} (h : Supply im A E) : Source im A E where
  alloc := h.alloc
  keep hA hcur hstock htrail :=
    h.same hA hcur (congrArg Stock.tH hstock) (congrArg Stock.free hstock) htrail

/-- The calls still to come decide whether `P` holds. -/
def Ledger (im : Image) (p : Nat) (P : Prop) (n : Nat) (k : Kernel) : Prop :=
  k.cur = some p ∧ (P ↔ k.stock.Affords im n)

end Xv6.Swap
