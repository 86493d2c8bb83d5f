import AdvancedXv6.Swap.SwapArea

/-! `swap_out_one_page` runs to completion. -/

namespace Xv6.Swap
open Function Effect Ownership

variable {im : Image} {k k₀ k' s : Kernel} {H : Held} {d f n m i j b p v va pg : Nat} {e : Word}
  {E : Panic → Kernel → Prop} {ev : Evictor} {js : List Nat}

theorem not_stale_of_fresh (h : k.tlb = k.freshTlb k.cr3) : ¬k.Stale pg := by
  rintro ⟨e, he, hno⟩
  rw [h, Kernel.freshTlb, Option.mem_toList, Option.filter_eq_some_iff] at he
  exact hno ⟨e, he.1, by simpa using he.2, rfl, rfl⟩

/-! ### The disk writes -/

theorem Writing.still (h : Writing k s f n js) (hk : Accounted im k (H.hold (.slot n))) :
    Still k s H where
  calm := h.only.calm
  frames _ _ _ _ := by rw [h.only.mem]
  slots r m hr hm := by
    have hne : m ≠ n := fun e => hk.ref_ne hm (e ▸ rfl)
    have hn : n < numSlots := hk.slot_lt (r := .held) List.mem_cons_self
    have hm' : m < numSlots := hk.slot_lt (refers_hold hm)
    refine ⟨?_, by rw [h.only.eq]⟩
    funext i
    rw [Kernel.contents, Kernel.contents,
      h.other _ fun j hj e => hne (swapBlock_inj hm' hn (block_lt i) hj e).1]

theorem Writing.contents (h : Writing k s f n []) : s.contents (.slot n) = k.contents (.frame f) := by
  funext i
  rw [Kernel.contents, Kernel.contents, h.done _ (block_lt i) (by simp), Nat.mul_comm,
    Nat.div_add_mod]

theorem Writing.wf (h : Writing k s f n js) (hk : Wf im k (H.hold (.slot n))) :
    Wf im s (H.hold (.slot n)) where
  acc := by
    refine (h.still hk.acc).sameTables.hold.accounted hk.acc ?_ ?_ fun _ => ?_ <;> rw [h.only.eq]
  sane := by
    refine (Sane.still (H := H) (hk.sane.held rfl rfl) (h.still hk.acc) ?_ ?_ ?_
      (h.only.bufs hk.sane.bufs)).held rfl rfl <;> rw [h.only.eq]

theorem Writing.quiet (h : Writing k s f n js) (hk : Accounted im k (H.hold (.slot n)))
    (htlb : s.tlb = k.freshTlb k.cr3) : Quiet noPage k s H := by
  obtain ⟨r, hr⟩ := h.only.trail
  refine (h.still hk).quiet (.inr ⟨fun pg _ => not_stale_of_fresh ?_, _, hr⟩)
  rw [htlb, h.only.freshTlb, h.only.calm.cr3]

/-! ### The end of an eviction -/

theorem slotPerm_swapEntry : SlotPerm (savedPerm e) (swapEntry n e) :=
  ⟨savedPerm_lt e, by rw [permOf_savedPerm, permOf_swapEntry]⟩

theorem names_swapEntry (hn : n < numSlots) : names (swapEntry n e) = some (.slot n) := by
  rw [names_swapped (not_present_swapEntry n e) (swapped_swapEntry n e), slotOf_swapEntry e]
  exact Nat.lt_trans hn (by decide)

theorem evolves_swapEntry (he : Present e) : Evolves e (swapEntry n e) where
  perm := permOf_swapEntry n e
  absent h := absurd he h
  frame h := absurd h (not_present_swapEntry n e)
  out _ := .inr (swapped_swapEntry n e)

/-- An eviction under way whose slot holds a copy of the page. -/
structure Copied (im : Image) (k : Kernel) (H : Held) (ev : Evictor) (n : Nat) : Prop where
  wf : Wf im k (H.hold (.slot n))
  live : k.Live H ev.dir
  shared : ev.dir ∉ H.dirs
  va_lt : ev.va < kernBase
  aligned : ev.va = ev.va / pgSize * pgSize
  walk : k.walk ev.dir ev.va = some ev.pte
  present : Present (k.load ev.pte)
  mem : ev.mem = frameOf (k.load ev.pte)
  slot : ev.slot = n
  perm : (k.swapSlots n).pagePerm = savedPerm (k.load ev.pte)
  copy : k.contents (.slot n) = k.contents (.frame ev.mem)

/-- The state after the entry is overwritten. -/
def Evictor.entered (ev : Evictor) (n : Nat) (k : Kernel) : Kernel :=
  (k.setPte ev.dir ev.va ev.pte (swapEntry n (k.load ev.pte))).log [.evict ev.dir ev.va]

section Copied
variable (h : Copied im k H ev n)
include h

theorem Copied.lt : n < numSlots := h.wf.acc.slot_lt (r := .held) List.mem_cons_self

theorem Copied.names : names (k.load ev.pte) = some (.frame ev.mem) := by
  rw [names_present h.present, h.mem]

theorem Copied.wf_entered : Wf im (ev.entered n k) (H.hold (.frame ev.mem)) := by
  obtain ⟨hva, hpg⟩ := userPages_of_va h.va_lt
  have hacc : Accounted im (k.setPte ev.dir ev.va ev.pte (swapEntry n (k.load ev.pte)))
      (H.holds (Swap.names (k.load ev.pte))) := by
    refine Accounted.setPte ?_ h.live h.walk hva hpg
    rw [names_swapEntry h.lt]
    exact h.wf.acc
  rw [h.names] at hacc
  have hsane := h.wf.sane.setPte h.wf.acc h.live h.walk hva (w := swapEntry n (k.load ev.pte))
    (fun m hm => by
      rw [names_swapEntry h.lt] at hm
      cases hm
      rw [h.perm]
      exact slotPerm_swapEntry) (.inl hpg)
  exact ⟨{ hacc with }, { hsane.held rfl rfl with }⟩

theorem Copied.quiet_entered : Quiet noPage k (ev.entered n k) H := by
  refine (Quiet.store h.wf.acc h.live h.walk (userPages_of_va h.va_lt).1 (by simp)
    (.inr ⟨h.shared, evolves_swapEntry h.present, ?_, fun _ => .inr ?_⟩)).unhold
  · rw [names_swapEntry h.lt, h.names, Option.map_some, Option.map_some, h.copy]
  · rw [← h.aligned]
    exact List.mem_singleton.mpr rfl

theorem Copied.in_entered {d' pg : Nat} (hd' : k.Live H d') (hpg : pg < tablePages) :
    (ev.entered n k).In d' pg ↔ k.In d' pg ∧ ¬(d' = ev.dir ∧ pg = ev.va / pgSize) := by
  have hentry : (ev.entered n k).entry d' pg = _ := entry_setPte h.wf.acc h.live h.walk
    (userPages_of_va h.va_lt).1 hd' (tablePages_div.mp hpg)
  rw [Kernel.In, Kernel.In, hentry]
  by_cases hx : d' = ev.dir ∧ pg = ev.va / pgSize
  · simp [hx]
  · simp [hx]

theorem swapOutEnd_spec {Q : Unit → Kernel → Prop} (hQ : Q () ((ev.entered n k).freed ev.mem)) :
    wp (swapOutEnd im ev) k Q E := by
  rw [swapOutEnd, wp_bind, wp_modify, h.slot]
  exact (wp_kfree h.wf_entered.held_valid h.wf_entered.sane.unlocked).mpr hQ

end Copied

/-! ### One eviction -/

/-- Page `pg` of the process `v` went from the frame `f` to the slot `n`. -/
structure Evicted (im : Image) (k k' : Kernel) (H : Held) (v pg n f : Nat) : Prop where
  wf : Wf im k' H
  quiet : Quiet noPage k k' H
  lt : v < nProc
  evictable : Evictable (k.proc v).state
  ahead : ∀ i, i < nProc → Evictable (k.proc i).state → k.Ahead v i
  below : pg < pageCount (k.proc v).sz
  wasIn : k.In (k.proc v).pgdir pg
  out : ∀ d pg', k.Live H d → pg' < userPages →
    (k'.In d pg' ↔ k.In d pg' ∧ ¬(d = (k.proc v).pgdir ∧ pg' = pg))
  wasFree : n < numSlots ∧ (k.swapSlots n).isFree = true
  slots : ∀ m, (k'.swapSlots m).isFree = true ↔ m ≠ n ∧ (k.swapSlots m).isFree = true
  freelist : k'.freelist = f :: k.freelist
  count : k'.freePagesCount = k.freePagesCount + 1
  tH : k'.tH = k.tH
  nPg : k'.nPg = k.nPg
  trail : ∃ r, k'.trail =
    .evict (k.proc v).pgdir (pg * pgSize) :: (List.replicate r .reload ++ k.trail)

theorem Still.in_iff {d pg : Nat} (h : Still k k' H) (hd : k.Live H d) (hpg : pg < tablePages) :
    k'.In d pg ↔ k.In d pg := by
  rw [Kernel.In, Kernel.In, h.entry hd hpg]

theorem Quiet.in_iff (h : Quiet noPage k k' H) (hd : k.Live H d) (hpg : pg < userPages)
    (ht : k'.trail = k.trail) : k'.In d pg ↔ k.In d pg := by
  have hva : pg * pgSize < kernBase := by
    rw [userPages] at hpg
    rw [pgSize, kernBase]
    omega
  have hdiv : pg * pgSize / pgSize = pg := Nat.mul_div_cancel _ (by decide)
  have hiff (k : Kernel) : k.Resident d (pg * pgSize) ↔ k.In d pg := by
    rw [Kernel.resident_iff (userPages_of_va hva).1, hdiv]
    exact Iff.rfl
  rw [← hiff, ← hiff]
  exact ⟨h.resident hd hva id, h.resident_of_trail hd hva id ht⟩

/-- After the last disk write the entry can be overwritten. -/
theorem Begun.copied {k₁ k₂ : Kernel} (hb : Begun im k k₁ H ev v n) (hk : Wf im k H)
    (hw : Writing k₁ k₂ ev.mem n []) : Copied im k₂ H ev n where
  wf := hw.wf hb.wf
  live := by
    rw [hw.only.calm.live, hb.quiet.calm.live, hb.dir]
    exact ⟨_, hk.sane.dir_proc hb.lt hb.evictable⟩
  shared hd := by
    have := hk.acc.exact.unique (r := .dir (.proc v)) (s := .dir .held) (a := .frame ev.dir)
      ⟨_, hb.dir ▸ hk.sane.dir_proc hb.lt hb.evictable, rfl⟩ ⟨_, hd, rfl⟩
    cases this
  va_lt := (mem_pagesBelow (hk.sane.size v hb.lt (.inl hb.evictable)) hb.below).1
  aligned := (mem_pagesBelow (hk.sane.size v hb.lt (.inl hb.evictable)) hb.below).2.1
  walk := by rw [Kernel.walk, hw.only.mem]; exact hb.walk
  present := by rw [Kernel.load, hw.only.mem]; exact hb.present
  mem := by rw [Kernel.load, hw.only.mem]; exact hb.mem
  slot := hb.slot
  perm := by
    rw [Kernel.load, hw.only.mem, hw.only.eq]
    show (k₁.swapSlots n).pagePerm = _
    rw [hb.slots, update_self]
    rfl
  copy := by
    rw [hw.contents]
    funext i
    rw [Kernel.contents, Kernel.contents, hw.only.mem]

theorem Begun.evicted {k₁ k₂ : Kernel} (hb : Begun im k k₁ H ev v n) (hk : Wf im k H)
    (hw : Writing k₁ k₂ ev.mem n []) (htlb : k₂.tlb = k₁.freshTlb k₁.cr3) :
    Evicted im k ((ev.entered n k₂).freed ev.mem) H v (ev.va / pgSize) n ev.mem := by
  have hc := hb.copied hk hw
  have hq₂ := hb.quiet.trans (hw.quiet hb.wf.acc htlb)
  have hst := still_freed hc.wf_entered.acc
  have hsz := mem_pagesBelow (hk.sane.size v hb.lt (.inl hb.evictable)) hb.below
  have hlive : k.Live H (k.proc v).pgdir := ⟨_, hk.sane.dir_proc hb.lt hb.evictable⟩
  have hin {d pg : Nat} (hd : k.Live H d) (hpg : pg < userPages) : k₂.In d pg ↔ k.In d pg := by
    rw [Kernel.In, hw.only.entry]
    exact hb.quiet.in_iff hd hpg hb.trail
  refine {
    wf := hc.wf_entered.freed
    quiet := (hq₂.trans hc.quiet_entered).trans (hst.quiet_same rfl rfl)
    lt := hb.lt
    evictable := hb.evictable
    ahead := hb.ahead
    below := hsz.2.2
    wasIn := ?_
    out := fun d pg' hd hpg' => ?_
    wasFree := hb.wasFree
    slots := fun m => ?_
    freelist := ?_
    count := ?_
    tH := ?_
    nPg := ?_
    trail := ?_ }
  · rw [← hin hlive (userPages_of_va hsz.1).2, ← hb.dir]
    exact ⟨_, Kernel.entry_of_walk (userPages_of_va hsz.1).1 hc.walk, hc.present⟩
  · have hd₂ := hq₂.calm.live.mpr hd
    rw [hst.in_iff (hc.quiet_entered.calm.live.mpr hd₂) (lt_tablePages hpg'),
      hc.in_entered hd₂ (lt_tablePages hpg'), hin hd hpg', hb.dir]
  · show (k₂.swapSlots m).isFree = true ↔ _
    rw [hw.only.eq]
    show (k₁.swapSlots m).isFree = true ↔ _
    rw [hb.slots]
    by_cases hm : m = n
    · simp [hm]
    · simp [hm]
  · show ev.mem :: k₂.freelist = _
    rw [hw.only.eq, ← hb.freelist]
  · show k₂.freePagesCount + 1 = _
    rw [hw.only.eq, ← hb.count]
  · show k₂.tH = _
    rw [hw.only.eq, ← hb.tH]
  · show k₂.nPg = _
    rw [hw.only.eq, ← hb.nPg]
  · obtain ⟨r, hr⟩ := hw.only.trail
    refine ⟨r, ?_⟩
    show .evict ev.dir ev.va :: k₂.trail = _
    rw [hr, hb.trail, hb.dir, ← hsz.2.1]

/-- An eviction fails only for want of a page or of a slot. -/
theorem swapOutOnePage_spec (h : Wf im k H) (hp : k.cur = some p) :
    wp (swapOutOnePage im) k (fun _ k' => ∃ v pg n f, Evicted im k k' H v pg n f)
      (fun e _ => (e = .noVictimPage ∧ k.NoPage) ∨ (e = .incorrectBlockno ∧ k.NoSlot)) := by
  rw [swapOutOnePage, wp_bind]
  refine wp_mono (swapOutBegin_spec h hp) (fun ev k₁ hk₁ => ?_) (fun e _ he => .inl he)
  rw [wp_bind]
  rcases hk₁ with ⟨v, n, hb⟩ | ⟨hslot, hno, h₁, -⟩
  · rw [hb.slot]
    refine wp_mono (writeToSwap_spec hb.wasFree.1 (hb.wf.sane.onOwnTable
      (hb.quiet.calm.cur.trans hp))) (fun _ k₂ hpost => ?_) (fun _ _ he => he)
    obtain ⟨hw, htlb, _⟩ := hpost
    exact swapOutEnd_spec (hb.copied h hw) ⟨v, _, n, _, hb.evicted h hw htlb⟩
  · rw [hslot]
    exact (wp_writeToSwap_bad h₁.sane.bufs).mpr (.inr ⟨rfl, hno⟩)

end Xv6.Swap
