import AdvancedXv6.Swap.VictimSpec

/-! `swap_out_one_page` as a whole: it fails exactly when no page or no slot is left, and otherwise
moves one page from its frame to a slot. -/

namespace Xv6.Swap
open Function Effect Ownership

variable {im : Image} {k k₀ k' : Kernel} {H : Held} {d va pg f n i p v : Nat} {e w : Word}
  {E : Panic → Kernel → Prop} {q : PtePtr} {ev : Evictor}

/-! ### The slot -/

/-- All slots are in use. -/
def Kernel.NoSlot (k : Kernel) : Prop := ∀ n, n < numSlots → (k.swapSlots n).isFree = false

/-- No process that may lose pages has one in memory. -/
def Kernel.NoPage (k : Kernel) : Prop :=
  ∀ i, i < nProc → Evictable (k.proc i).state →
    ∀ va ∈ pagesBelow (k.proc i).sz, ¬k.Resident (k.proc i).pgdir va

/-- A slot in use, with the saved flags. -/
def Kernel.reserve (k : Kernel) (n : Nat) (perm : Word) : Kernel :=
  { k with swapSlots := update k.swapSlots n ⟨perm, false⟩ }

theorem still_reserve (perm : Word) (hk : Accounted im k H) (hn : n < numSlots)
    (hfree : (k.swapSlots n).isFree = true) : Still k (k.reserve n perm) H where
  calm := .of_eq rfl rfl rfl rfl rfl rfl rfl rfl
  frames _ _ _ _ := rfl
  slots r m hr hm := by
    refine ⟨rfl, ?_⟩
    have hne : m ≠ n := by
      rintro rfl
      exact hr (hk.exact.unique hm (s := .free) ⟨hn, hfree⟩)
    rw [Kernel.reserve]
    simp only [update_of_ne hne]

theorem Wf.reserve {perm : Word} (h : Wf im k H) (hn : n < numSlots)
    (hfree : (k.swapSlots n).isFree = true) : Wf im (k.reserve n perm) (H.hold (.slot n)) where
  acc := by
    refine h.acc.takeSlot (still_reserve _ h.acc hn hfree).sameTables hn hfree (fun m => ?_) rfl rfl
    by_cases hm : m = n
    · subst hm
      simp [Kernel.reserve]
    · simp [Kernel.reserve, hm]
  sane := (h.sane.still (still_reserve _ h.acc hn hfree) rfl rfl rfl h.sane.bufs).held rfl rfl

theorem findFreeSlot_spec {Q : Int → Kernel → Prop}
    (hsome : ∀ n, n < numSlots → (k.swapSlots n).isFree = true →
      Q n (k.reserve n (k.swapSlots n).pagePerm))
    (hnone : k.NoSlot → Q (-1) k) : wp findFreeSlot k Q E := by
  have hl : ∀ n, n ∈ List.range numSlots ↔ n < numSlots := fun n => List.mem_range
  rw [findFreeSlot]
  generalize List.range numSlots = l at hl
  simp only [wp_bind, wp_get]
  cases h : l.find? (fun i => (k.swapSlots i).isFree) with
  | some n =>
    simp only [wp_bind, wp_modify, wp_pure]
    exact hsome n ((hl n).mp (List.mem_of_find?_eq_some h)) (by simpa using List.find?_some h)
  | none =>
    simp only [wp_pure]
    refine hnone fun n hn => ?_
    simpa using List.find?_eq_none.mp h n ((hl n).mpr hn)

theorem wp_savePerm {Q : Unit → Kernel → Prop} {perm perm' : Word} :
    wp (savePerm n perm) (k.reserve n perm') Q E ↔ Q () (k.reserve n perm) := by
  rw [savePerm, wp_modify, if_neg (Int.not_lt.mpr (Int.natCast_nonneg n))]
  simp only [Kernel.reserve, Int.toNat_natCast, update_self, update_idem]

/-! ### Up to the first disk access -/

/-- What `swap_out_one_page` has done when it starts to write: the state `k'`, the victim `v` and
the slot `n`. -/
structure Begun (im : Image) (k k' : Kernel) (H : Held) (ev : Evictor) (v n : Nat) : Prop where
  wf : Wf im k' (H.hold (.slot n))
  quiet : Quiet noPage k k' H
  lt : v < nProc
  evictable : Evictable (k.proc v).state
  ahead : ∀ i, i < nProc → Evictable (k.proc i).state → k.Ahead v i
  dir : ev.dir = (k.proc v).pgdir
  below : ev.va ∈ pagesBelow (k.proc v).sz
  walk : k'.walk ev.dir ev.va = some ev.pte
  present : Present (k'.load ev.pte)
  mem : ev.mem = frameOf (k'.load ev.pte)
  slot : ev.slot = n
  wasFree : n < numSlots ∧ (k.swapSlots n).isFree = true
  slots : k'.swapSlots = update k.swapSlots n ⟨savedPerm (k'.load ev.pte), false⟩
  freelist : k'.freelist = k.freelist
  count : k'.freePagesCount = k.freePagesCount
  tH : k'.tH = k.tH
  nPg : k'.nPg = k.nPg
  trail : k'.trail = k.trail

theorem mem_pagesBelow {sz : Nat} (hsz : sz ≤ kernBase) (h : va ∈ pagesBelow sz) :
    va < kernBase ∧ va = va / pgSize * pgSize ∧ va / pgSize < pageCount sz := by
  rw [pagesBelow, List.mem_map] at h
  obtain ⟨pg, hpg, rfl⟩ := h
  rw [List.mem_range] at hpg
  have hlt := lt_pageCount.mp hpg
  have hdiv : pg * pgSize / pgSize = pg := Nat.mul_div_cancel _ (by decide)
  exact ⟨Nat.lt_of_lt_of_le hlt hsz, by rw [hdiv], by rw [hdiv]; exact hpg⟩

theorem countResident_pos {pr : Proc} :
    0 < k.countResident pr ↔ ∃ va ∈ pagesBelow pr.sz, k.Resident pr.pgdir va := by
  rw [Kernel.countResident, List.countP_pos_iff]
  simp only [decide_eq_true_eq]

/-- No eviction can start without an evictable process that has a page in memory. -/
theorem noPage_of_lead (hv : ∀ i, i < nProc → Evictable (k.proc i).state → k.Ahead v i)
    (h : ∀ va ∈ pagesBelow (k.proc v).sz, ¬k.Resident (k.proc v).pgdir va) : k.NoPage := by
  intro i hi hs va hva hr
  have hpos : 0 < k.countResident (k.proc i) := countResident_pos.mpr ⟨va, hva, hr⟩
  have hv0 : ¬0 < k.countResident (k.proc v) := fun hp => by
    obtain ⟨x, hx, hr⟩ := countResident_pos.mp hp
    exact h x hx hr
  rcases hv i hi hs with hlt | ⟨heq, _⟩ <;> omega

theorem Quiet.resident {X : Nat → Nat → Prop} (hq : Quiet X k k' H) (hd : k.Live H d)
    (hva : va < kernBase) (hx : ¬X d (va / pgSize)) (h : k'.Resident d va) : k.Resident d va := by
  obtain ⟨h32, hpg⟩ := userPages_of_va hva
  rw [Kernel.resident_iff h32] at h ⊢
  obtain ⟨e', he', hp⟩ := h
  have hg := hq.entry d _ hd (lt_tablePages hpg) hx
  rw [he'] at hg
  cases hg' : k.entry d (va / pgSize) with
  | none =>
    rw [hg'] at hg
    cases hg
    exact absurd hp (by decide)
  | some e =>
    rw [hg'] at hg
    cases hg with
    | some hev => exact ⟨e, rfl, hev.present hp⟩

/-- While nothing is logged, no page leaves the memory. -/
theorem Quiet.resident_of_trail {X : Nat → Nat → Prop} (hq : Quiet X k k' H) (hd : k.Live H d)
    (hva : va < kernBase) (hx : ¬X d (va / pgSize)) (ht : k'.trail = k.trail)
    (h : k.Resident d va) : k'.Resident d va := by
  obtain ⟨h32, hpg⟩ := userPages_of_va hva
  rw [Kernel.resident_iff h32] at h ⊢
  obtain ⟨evs, hevs, hin⟩ := hq.trail
  have hnil : evs = [] := by
    rw [ht] at hevs
    exact List.self_eq_append_left.mp hevs
  rcases hin d _ hd hpg hx h with h | h
  · exact h
  · rw [hnil] at h
    cases h

theorem swapOutBegin_spec (h : Wf im k H) (hp : k.cur = some p) :
    wp swapOutBegin k
      (fun ev k' => (∃ v n, Begun im k k' H ev v n) ∨
        (ev.slot = -1 ∧ k.NoSlot ∧ Wf im k' H ∧ k'.cur = some p))
      (fun e _ => e = .noVictimPage ∧ k.NoPage) := by
  rw [swapOutBegin, wp_bind]
  refine wp_mono (victimLoop_spec (List.range nProc) [] (.refl k)
    ⟨fun _ => rfl, by simp, by simp⟩) (fun victim k₁ hpost => ?_) (fun _ _ he => he)
  obtain ⟨hrss, m, hlead⟩ := hpost
  rw [List.nil_append] at hlead
  have hprun := h.sane.run p hp
  obtain ⟨v, rfl, -⟩ := hlead.ahead p (List.mem_range.mpr hprun.1)
    (by rw [hprun.2.1]; exact .inr (.inl rfl))
  obtain ⟨hmem, hev, -⟩ := hlead.pick v rfl
  have hv := List.mem_range.mp hmem
  have hahead (i : Nat) (hi : i < nProc) (hs : Evictable (k.proc i).state) : k.Ahead v i := by
    obtain ⟨v', hv', ha⟩ := hlead.ahead i (List.mem_range.mpr hi) hs
    cases hv'
    exact ha
  have h₁ := hrss.wf h
  have hq₁ := hrss.quiet H
  have hdir := h.sane.dir_proc hv hev
  have hlive : k.Live H (k.proc v).pgdir := ⟨_, hdir⟩
  have hshared : (k.proc v).pgdir ∉ H.dirs := fun hd => by
    have := h.acc.exact.unique (r := .dir (.proc v)) (s := .dir .held) (a := .frame (k.proc v).pgdir)
      ⟨_, hdir, rfl⟩ ⟨_, hd, rfl⟩
    cases this
  have hsz := h.sane.size v hv (.inl hev)
  simp only [wp_bind, wp_get, hrss.calm.pgdir, hrss.calm.sz]
  refine wp_mono (secondChance_spec (pagesBelow (k.proc v).sz) h₁ (hrss.calm.live.mpr hlive) hshared
    fun va hva => (mem_pagesBelow hsz hva).1) (fun found k₂ hpost => ?_) (fun _ _ he => he)
  obtain ⟨h₂, hq₂, hflags, hfound⟩ := hpost
  have hq := hq₁.trans hq₂
  have hlive₂ := hq.calm.live.mpr hlive
  have hstock := hrss.stock.trans hflags.stock
  cases hor : found.or (firstResident k₂ (k.proc v).pgdir (pagesBelow (k.proc v).sz)) with
  | none =>
    refine (wp_throw _).mpr ⟨rfl, noPage_of_lead hahead fun va hva hr => ?_⟩
    rw [Option.or_eq_none_iff] at hor
    have hno := List.find?_eq_none.mp hor.2 va hva
    simp only [decide_eq_true_eq] at hno
    exact hno (hq.resident_of_trail hlive (mem_pagesBelow hsz hva).1 id hstock.trail hr)
  | some va =>
    have hva : va ∈ pagesBelow (k.proc v).sz ∧ k₂.Resident (k.proc v).pgdir va := by
      rcases Option.or_eq_some_iff.mp hor with rfl | ⟨-, hfirst⟩
      · exact hfound va rfl
      · exact ⟨List.mem_of_find?_eq_some hfirst, by simpa using List.find?_some hfirst⟩
    obtain ⟨hbelow, q, hwalk, hpres⟩ := hva
    obtain ⟨hlt, -, -⟩ := mem_pagesBelow hsz hbelow
    have hload := Kernel.entry_of_walk (userPages_of_va hlt).1 hwalk
    have hvalid : im.Valid (frameOf (k₂.load q)) := h₂.acc.ref_valid
      (Accounted.user_ref hlive₂ (userPages_of_va hlt).2 hload (names_present hpres))
    have hnull : frameOf (k₂.load q) ≠ nullFrame := fun e => by
      rw [e] at hvalid
      exact absurd hvalid.2 (by decide)
    simp only [hwalk, wp_bind]
    refine findFreeSlot_spec (fun n hn hisFree => ?_) fun hno => ?_
    · rw [if_neg hnull, wp_bind, wp_savePerm, wp_pure]
      have hst := still_reserve (savedPerm (k₂.load q)) h₂.acc hn hisFree
      refine .inl ⟨v, n, ?_⟩
      exact {
        wf := h₂.reserve hn hisFree
        quiet := hq.trans (hst.quiet_same rfl rfl)
        lt := hv
        evictable := hev
        ahead := hahead
        dir := rfl
        below := hbelow
        walk := hwalk
        present := hpres
        mem := rfl
        slot := rfl
        wasFree := ⟨hn, hstock.slots ▸ hisFree⟩
        slots := by rw [← hstock.slots]; rfl
        freelist := hstock.freelist
        count := hstock.count
        tH := hstock.tH
        nPg := hstock.nPg
        trail := hstock.trail }
    · rw [if_neg hnull, wp_bind, savePerm, wp_modify, if_pos (by decide), wp_pure]
      exact .inr ⟨rfl, fun m hm => by rw [← hstock.slots]; exact hno m hm, h₂, hq.calm.cur.trans hp⟩

end Xv6.Swap
