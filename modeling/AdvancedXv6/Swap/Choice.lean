import AdvancedXv6.Swap.SwapOutSpec
import AdvancedXv6.Swap.Controller

/-! Which page `swap_out_one_page` evicts, and all that it changes on the way. Nothing here depends on who
owns the slots: it is enough that the tables of each process and its pages lie in frames of their own. -/

namespace Xv6.Swap
open Function Effect

variable {im : Image} {k k₀ k' : Kernel} {d f n m i p v pg x : Nat} {e : Word} {q q' : PtePtr}
  {E : Panic → Kernel → Prop}

namespace Kernel

/-- The pointer to the entry for the page `pg`. -/
def slotIn (k : Kernel) (d pg : Nat) : Option PtePtr := k.walk d (pg * pgSize)

/-- The page tables under `d` and the pages below `n` that they show lie in frames of their own. -/
structure Separate (im : Image) (k : Kernel) (d n : Nat) : Prop where
  dir : ∀ pg q, pg < n → k.slotIn d pg = some q → q.frame ≠ d
  inj : ∀ pg pg' q, pg < n → pg' < n → k.slotIn d pg = some q → k.slotIn d pg' = some q → pg = pg'
  valid : ∀ pg q, pg < n → k.slotIn d pg = some q → Present (k.load q) → im.Valid (frameOf (k.load q))
  apart : ∀ pg q pg' q', pg < n → pg' < n → k.slotIn d pg = some q → Present (k.load q) →
    k.slotIn d pg' = some q' → q'.frame ≠ frameOf (k.load q)

/-- A process runs on its own page table, the allocator is not locked, and each address space that may lose
pages ends below the kernel and has its frames for itself. -/
structure Laid (im : Image) (k : Kernel) : Prop where
  unlocked : k.kmemLocked = false
  runs : k.OnOwnTable
  separate : ∀ i, i < nProc → Evictable (k.proc i).state →
    k.Separate im (k.proc i).pgdir (pageCount (k.proc i).sz)

/-- The accessed bit of the page `pg` of the process `v` is set. -/
def Touched (k : Kernel) (v pg : Nat) : Prop :=
  ∃ q, k.slotIn (k.proc v).pgdir pg = some q ∧ Accessed (k.load q)

end Kernel

theorem load_setPte_of_ne {va : Nat} {w : Word} (h : q' ≠ q) : (k.setPte d va q w).load q' = k.load q' := by
  rw [Kernel.load, Kernel.setPte, Kernel.load]
  by_cases hf : q'.frame = q.frame
  · have hidx : q'.idx ≠ q.idx := fun hi => h (by cases q; cases q'; cases hf; cases hi; rfl)
    simp only [hf, update_self, update_of_ne hidx]
  · simp only [update_of_ne hf]

namespace Kernel

/-- The pages in `P` have lost their accessed bits, and nothing else in memory has changed. -/
structure Cleared (k k' : Kernel) (d : Nat) (P : Nat → Prop) : Prop where
  inside : ∀ x q, P x → k.slotIn d x = some q → k'.load q = k.load q &&& ~~~pteA
  outside : ∀ g j, (∀ x, P x → k.slotIn d x ≠ some ⟨g, j⟩) → k'.mem g j = k.mem g j

theorem Cleared.refl (k : Kernel) (d : Nat) : k.Cleared k d fun _ => False :=
  ⟨fun _ _ h => h.elim, fun _ _ _ => rfl⟩

theorem resident_page : k.Resident d (pg * pgSize) ↔ ∃ q, k.slotIn d pg = some q ∧ Present (k.load q) := Iff.rfl

section Cleared
variable {P : Nat → Prop} (hs : k.Separate im d n) (hP : ∀ x, P x → x < n) (h : k.Cleared k' d P)
include hs hP h

theorem Cleared.slotIn (pg : Nat) : k'.slotIn d pg = k.slotIn d pg := by
  have hdir (j : Nat) : k'.mem d j = k.mem d j :=
    h.outside d j fun x hx hq => hs.dir x _ (hP x hx) hq rfl
  rw [Kernel.slotIn, Kernel.slotIn, Kernel.walk, Kernel.walk, hdir]

theorem Cleared.load_of_not (hpg : pg < n) (hq : k.slotIn d pg = some q) (hno : ¬P pg) : k'.load q = k.load q := by
  refine h.outside q.frame q.idx fun x hx hxq => hno ?_
  rwa [hs.inj pg x q hpg (hP x hx) hq hxq]

theorem Cleared.present (hpg : pg < n) (hq : k.slotIn d pg = some q) : Present (k'.load q) ↔ Present (k.load q) := by
  by_cases hx : P pg
  · rw [h.inside pg q hx hq, Present, and_clear _ (by decide)]
    exact Iff.rfl
  · rw [h.load_of_not hs hP hpg hq hx]

theorem Cleared.frame (hpg : pg < n) (hq : k.slotIn d pg = some q) : frameOf (k'.load q) = frameOf (k.load q) := by
  by_cases hx : P pg
  · rw [h.inside pg q hx hq, frameOf_clear _ (by decide)]
  · rw [h.load_of_not hs hP hpg hq hx]

theorem Cleared.resident (hpg : pg < n) : k'.Resident d (pg * pgSize) ↔ k.Resident d (pg * pgSize) := by
  rw [resident_page, resident_page, h.slotIn hs hP]
  exact exists_congr fun q => and_congr_right fun hq => h.present hs hP hpg hq

/-- One more page loses its bit. -/
theorem Cleared.next (hpg : pg < n) (hq : k.slotIn d pg = some q) (hno : ¬P pg) :
    k.Cleared (k'.setPte d (pg * pgSize) q (k'.load q &&& ~~~pteA)) d fun x => P x ∨ x = pg := by
  have hload := h.load_of_not hs hP hpg hq hno
  refine ⟨fun x q' hx hq' => ?_, fun g j hoff => ?_⟩
  · by_cases heq : x = pg
    · subst heq
      obtain rfl := Option.some.inj (hq.symm.trans hq')
      rw [← hload]
      simp [Kernel.load, Kernel.setPte]
    · have hne : q' ≠ q := fun he => heq (hs.inj x pg q (hP x (hx.resolve_right heq)) hpg (he ▸ hq') hq)
      rw [← h.inside x q' (hx.resolve_right heq) hq']
      exact load_setPte_of_ne hne
  · rw [← h.outside g j fun x hx => hoff x (.inl hx)]
    have hne : (⟨g, j⟩ : PtePtr) ≠ q := fun he => hoff pg (.inr rfl) (he ▸ hq)
    exact load_setPte_of_ne hne

end Cleared

theorem Cleared.congr {P P' : Nat → Prop} (h : k.Cleared k' d P) (hP : ∀ x, P' x ↔ P x) : k.Cleared k' d P' :=
  ⟨fun x q hx hq => h.inside x q ((hP x).mp hx) hq, fun g j hoff => h.outside g j fun x hx => hoff x ((hP x).mpr hx)⟩

end Kernel

/-- The pages below `m` have been passed over: all that are resident had been accessed, and have lost the bit. -/
structure Scanned (k k' : Kernel) (d m : Nat) : Prop where
  only : OnlyFlags k k'
  cleared : k.Cleared k' d fun x => x < m ∧ k.Resident d (x * pgSize)
  used : ∀ x q, x < m → k.slotIn d x = some q → Present (k.load q) → Accessed (k.load q)

theorem Scanned.start (k : Kernel) (d : Nat) : Scanned k k d 0 :=
  ⟨⟨k.mem, k.tlb, rfl⟩, (Kernel.Cleared.refl k d).congr (by simp), by simp⟩

/-- A page that is not in memory is passed over without a trace. -/
theorem Scanned.skip (h : Scanned k k' d m) (hm : ¬k.Resident d (m * pgSize)) : Scanned k k' d (m + 1) where
  only := h.only
  cleared := h.cleared.congr fun x => by
    rw [Nat.lt_succ_iff_lt_or_eq, or_and_right, or_iff_left_iff_imp]
    rintro ⟨rfl, hx⟩
    exact absurd hx hm
  used x q hx hq hp := by
    rcases Nat.lt_succ_iff_lt_or_eq.mp hx with hx | rfl
    · exact h.used x q hx hq hp
    · exact absurd ⟨q, hq, hp⟩ hm

theorem Scanned.pass (hs : k.Separate im d n) (h : Scanned k k' d m) (hm : m < n) (hq : k.slotIn d m = some q)
    (hp : Present (k.load q)) (ha : Accessed (k.load q)) :
    Scanned k (k'.setPte d (m * pgSize) q (k'.load q &&& ~~~pteA)) d (m + 1) where
  only := h.only.trans ⟨_, _, rfl⟩
  cleared := (h.cleared.next hs (fun x hx => hx.1.trans hm) hm hq fun hx => Nat.lt_irrefl m hx.1).congr fun x => by
    rw [Nat.lt_succ_iff_lt_or_eq, or_and_right]
    refine or_congr_right (and_iff_left_of_imp ?_)
    rintro rfl
    exact ⟨q, hq, hp⟩
  used x q' hx hq' hp' := by
    rcases Nat.lt_succ_iff_lt_or_eq.mp hx with hx | rfl
    · exact h.used x q' hx hq' hp'
    · obtain rfl := Option.some.inj (hq.symm.trans hq')
      exact ha

/-- The page that the two loops settle on, and the bits they have cleared. -/
structure Picked (k k' : Kernel) (d n pg : Nat) (q : PtePtr) (all : Bool) : Prop where
  below : pg < n
  entry : k.slotIn d pg = some q
  present : Present (k.load q)
  all_iff : all = true ↔ ∀ x q', x < n → k.slotIn d x = some q' → Present (k.load q') → Accessed (k.load q')
  fresh : all = false → ¬Accessed (k.load q)
  passed : ∀ x q', x < pg → k.slotIn d x = some q' → Present (k.load q') → all = false ∧ Accessed (k.load q')
  cleared : k.Cleared k' d fun x => (x < n ∧ k.Resident d (x * pgSize)) ∧ (all = true ∨ x < pg)

/-- Only the memory of the first state matters. -/
theorem Picked.of_mem {all : Bool} (h : Picked k k' d n pg q all) (hm : k₀.mem = k.mem) : Picked k₀ k' d n pg q all := by
  have hslot (x : Nat) : k₀.slotIn d x = k.slotIn d x := by
    rw [Kernel.slotIn, Kernel.slotIn, Kernel.walk, Kernel.walk, hm]
  have hload (q : PtePtr) : k₀.load q = k.load q := by rw [Kernel.load, Kernel.load, hm]
  have hres (x : Nat) : k₀.Resident d (x * pgSize) ↔ k.Resident d (x * pgSize) := by
    simp only [Kernel.resident_page, hslot, hload]
  refine ⟨h.below, ?_, ?_, ?_, ?_, ?_, ⟨fun x q' hx => ?_, fun g j hoff => ?_⟩⟩
  · simpa only [hslot] using h.entry
  · simpa only [hload] using h.present
  · simpa only [hslot, hload] using h.all_iff
  · simpa only [hload] using h.fresh
  · simpa only [hslot, hload] using h.passed
  · rw [hslot, hload]
    exact h.cleared.inside x q' (by simpa only [hres] using hx)
  · rw [hm]
    exact h.cleared.outside g j (by simpa only [hslot, hres] using hoff)

theorem Scanned.picked (h : Scanned k k' d pg) (hpg : pg < n) (hq : k.slotIn d pg = some q) (hp : Present (k.load q))
    (ha : ¬Accessed (k.load q)) : Picked k k' d n pg q false where
  below := hpg
  entry := hq
  present := hp
  all_iff := ⟨fun hf => absurd hf (by decide), fun hall => absurd (hall pg q hpg hq hp) ha⟩
  fresh _ := ha
  passed x q' hx hq' hp' := ⟨rfl, h.used x q' hx hq' hp'⟩
  cleared := h.cleared.congr fun x =>
    ⟨fun hx => ⟨hx.2.resolve_left (by decide), hx.1.2⟩, fun hx => ⟨⟨hx.1.trans hpg, hx.2⟩, .inr hx.1⟩⟩

/-- Before the first disk access: the page is chosen and the slot taken. -/
structure Ready (k k' : Kernel) (ev : Evictor) (v pg n : Nat) (all : Bool) : Prop where
  lt : v < nProc
  evictable : Evictable (k.proc v).state
  ahead : ∀ i, i < nProc → Evictable (k.proc i).state → k.Ahead v i
  picked : Picked k k' (k.proc v).pgdir (pageCount (k.proc v).sz) pg ev.pte all
  mem : ev.mem = frameOf (k'.load ev.pte)
  slot : ev.slot = n
  wasFree : n < numSlots ∧ (k.swapSlots n).isFree = true
  slots : k'.swapSlots = update k.swapSlots n ⟨savedPerm (k'.load ev.pte), false⟩
  disk : k'.disk = k.disk
  freelist : k'.freelist = k.freelist
  unlocked : k'.kmemLocked = k.kmemLocked
  runs : k.OnOwnTable → k'.OnOwnTable

section Ready
variable {ev : Evictor} {all : Bool} {k₁ k₂ : Kernel}

theorem Ready.load (h : Ready k k₁ ev v pg n all) (hl : k.Laid im) :
    k₁.load ev.pte = if all then k.load ev.pte &&& ~~~pteA else k.load ev.pte := by
  have hs := hl.separate v h.lt h.evictable
  have hres : k.Resident (k.proc v).pgdir (pg * pgSize) := ⟨_, h.picked.entry, h.picked.present⟩
  cases all with
  | true => exact h.picked.cleared.inside pg _ ⟨⟨h.picked.below, hres⟩, .inl rfl⟩ h.picked.entry
  | false =>
    refine h.picked.cleared.load_of_not hs (fun _ hx => hx.1.1) h.picked.below h.picked.entry ?_
    rintro ⟨-, hf | hlt⟩
    · cases hf
    · exact Nat.lt_irrefl pg hlt

end Ready

/-- In a well-formed state the tables and the pages of a process have frames of their own. -/
theorem Wf.separate {H : Held} (h : Wf im k H) (hv : v < nProc) (hev : Evictable (k.proc v).state) :
    k.Separate im (k.proc v).pgdir (pageCount (k.proc v).sz) := by
  have hlive : k.Live H (k.proc v).pgdir := ⟨_, h.sane.dir_proc hv hev⟩
  have hsz : ∀ {x}, x < pageCount (k.proc v).sz → x * pgSize < kernBase := fun hx =>
    Nat.lt_of_lt_of_le (lt_pageCount.mp hx) (h.sane.size v hv (.inl hev))
  have htab {x : Nat} {q : PtePtr} (hq : k.slotIn (k.proc v).pgdir x = some q) :
      k.Refers H (.tab (k.proc v).pgdir (pdx (x * pgSize))) (.frame q.frame) := Accounted.walk_ref hlive hq
  have huser {x : Nat} {q : PtePtr} (hx : x < pageCount (k.proc v).sz) (hq : k.slotIn (k.proc v).pgdir x = some q)
      (hp : Present (k.load q)) : k.Refers H (.user (k.proc v).pgdir (x * pgSize / pgSize)) (.frame (frameOf (k.load q))) :=
    Accounted.user_ref hlive (userPages_of_va (hsz hx)).2
      (Kernel.entry_of_walk (userPages_of_va (hsz hx)).1 hq) (names_present hp)
  refine ⟨fun x q _ hq he => ?_, fun x y q hx hy hq hq' => ?_, fun x q hx hq hp => h.acc.ref_valid (huser hx hq hp),
    fun x q y q' hx _ hq hp hq' he => ?_⟩
  · exact h.acc.tab_ne_live (htab hq) (he ▸ hlive)
  · obtain ⟨-, hpdx⟩ := h.acc.tab_inj (htab hq) (htab hq')
    have hptx : ptx (x * pgSize) = ptx (y * pgSize) := by
      have h₁ := congrArg PtePtr.idx (Kernel.walk_some hq).2
      have h₂ := congrArg PtePtr.idx (Kernel.walk_some hq').2
      exact h₁.symm.trans h₂
    have hx' := hsz hx
    have hy' := hsz hy
    rw [pdx_eq, pdx_eq] at hpdx
    rw [ptx_eq, ptx_eq] at hptx
    rw [pgSize, kernBase] at hx' hy'
    rw [pgSize] at hpdx hptx
    omega
  · have huniq := h.acc.exact.unique (huser hx hq hp) (he ▸ htab hq')
    cases huniq

theorem Wf.laid {H : Held} (h : Wf im k H) (hp : k.cur = some p) : k.Laid im :=
  ⟨h.sane.unlocked, h.sane.onOwnTable hp, fun _ hi hev => h.separate hi hev⟩

end Xv6.Swap
