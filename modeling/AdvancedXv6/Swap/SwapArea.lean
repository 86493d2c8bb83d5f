import AdvancedXv6.Swap.EvictSpec

/-! The swap area of the disk: eight blocks a slot, and the loops that copy a page to them and
back. -/

namespace Xv6.Swap
open Function Effect Ownership

variable {im : Image} {k k₀ k' : Kernel} {H : Held} {f n m i j b p : Nat} {E : Panic → Kernel → Prop}

theorem swapBlock_eq (hn : n < numSlots) (hj : j < blocksPerSlot) :
    swapBlock n j = swapStart + n * blocksPerSlot + j := by
  rw [numSlots] at hn
  rw [blocksPerSlot] at hj ⊢
  rw [swapBlock, swapStart, blocksPerSlot,
    show (((2 : Nat) : Int) + (n : Int) * ((8 : Nat) : Int) + (j : Int)) = ((2 + n * 8 + j : Nat) : Int) by
      push_cast; ring]
  rw [BitVec.ofInt_natCast, BitVec.toNat_ofNat, Nat.mod_eq_of_lt (by omega)]

/-- Every block of a slot lies in `[2, 6402)`. -/
theorem swapBlock_lt (hn : n < numSlots) (hj : j < blocksPerSlot) :
    swapStart ≤ swapBlock n j ∧ swapBlock n j < swapStart + numSlots * blocksPerSlot := by
  rw [swapBlock_eq hn hj]
  rw [numSlots] at hn ⊢
  rw [blocksPerSlot] at hj ⊢
  omega

theorem swapBlock_lt_fsSize (hn : n < numSlots) (hj : j < blocksPerSlot) :
    swapBlock n j < fsSize := (swapBlock_lt hn hj).2.trans (by decide)

theorem swapBlock_inj (hn : n < numSlots) (hm : m < numSlots) (hi : i < blocksPerSlot)
    (hj : j < blocksPerSlot) (h : swapBlock n i = swapBlock m j) : n = m ∧ i = j := by
  rw [swapBlock_eq hn hi, swapBlock_eq hm hj] at h
  rw [blocksPerSlot] at h hi hj
  omega

theorem block_lt (i : Fin pageWords) : i.val / blockWords < blocksPerSlot := by
  have : i.val < 1024 := i.isLt
  rw [blockWords, blocksPerSlot]
  omega

/-! ### One block -/

namespace Kernel

/-- The state after `bread b`. -/
def fetched (k : Kernel) (b : Nat) : Kernel :=
  if b ∈ k.bufs then k.useBuf b else (k.lcr3 k.cr3).useBuf b

/-- The state after `bwrite`. -/
def flushed (k : Kernel) (b : Nat) (data : Block) : Kernel :=
  { k with disk := update k.disk b data }.lcr3 k.cr3

/-- The current process runs on its own page table. -/
def OnOwnTable (k : Kernel) : Prop := ∃ p, k.cur = some p ∧ k.cr3 = (k.proc p).pgdir

end Kernel

theorem Sane.onOwnTable (h : Sane k H) (hp : k.cur = some p) : k.OnOwnTable :=
  ⟨p, hp, (h.run p hp).2.2⟩

theorem wp_bread {Q : Block → Kernel → Prop} (hb : b < fsSize) (hk : k.OnOwnTable) :
    wp (bread b) k Q E ↔ Q (k.disk b) (k.fetched b) := by
  obtain ⟨p, hp, hcr3⟩ := hk
  by_cases hmem : b ∈ k.bufs
  · simp [bread, hmem, Kernel.fetched]
  · simp [bread, hmem, Kernel.fetched, Nat.not_le.mpr hb, waitDisk, hp, hcr3]

theorem wp_bread_bad {Q : Block → Kernel → Prop} (hb : fsSize ≤ b)
    (hbufs : ∀ b ∈ k.bufs, b < fsSize) : wp (bread b) k Q E ↔ E .incorrectBlockno k := by
  have hmem : b ∉ k.bufs := fun h => Nat.not_lt.mpr hb (hbufs b h)
  simp [bread, hmem, hb]

theorem wp_bwrite {Q : Unit → Kernel → Prop} {data : Block} (hb : b < fsSize)
    (hk : k.OnOwnTable) : wp (bwrite b data) k Q E ↔ Q () (k.flushed b data) := by
  obtain ⟨p, hp, hcr3⟩ := hk
  simp [bwrite, Nat.not_le.mpr hb, waitDisk, hp, hcr3, Kernel.flushed]

/-! ### A page to the disk -/

/-- The states differ in disk and buffers, and in what a reload of `%cr3` changes. -/
structure OnlyDisk (k k' : Kernel) : Prop where
  eq : k' = { k with disk := k'.disk, bufs := k'.bufs, tlb := k'.tlb, trail := k'.trail }
  bufs : (∀ b ∈ k.bufs, b < fsSize) → ∀ b ∈ k'.bufs, b < fsSize
  trail : ∃ r, k'.trail = List.replicate r .reload ++ k.trail
  tlb : (k'.tlb = k.tlb ∧ k'.trail = k.trail) ∨ k'.tlb = k.freshTlb k.cr3

theorem OnlyDisk.refl (k : Kernel) : OnlyDisk k k := ⟨rfl, id, ⟨0, rfl⟩, .inl ⟨rfl, rfl⟩⟩

theorem OnlyDisk.calm (h : OnlyDisk k k') : Calm k k' := by
  rw [h.eq]
  exact .of_eq rfl rfl rfl rfl rfl rfl rfl rfl

theorem OnlyDisk.mem (h : OnlyDisk k k') : k'.mem = k.mem := by rw [h.eq]

theorem OnlyDisk.entry (h : OnlyDisk k k') (d pg : Nat) : k'.entry d pg = k.entry d pg := by
  rw [Kernel.entry, Kernel.entry, h.mem]

theorem OnlyDisk.freshTlb (h : OnlyDisk k k') (d : Nat) : k'.freshTlb d = k.freshTlb d := by
  funext pg
  rw [Kernel.freshTlb, Kernel.freshTlb, h.entry]

theorem OnlyDisk.trans (h : OnlyDisk k₀ k) (h' : OnlyDisk k k') : OnlyDisk k₀ k' where
  eq := by rw [h'.eq, h.eq]
  bufs hb := h'.bufs (h.bufs hb)
  trail := by
    obtain ⟨r, hr⟩ := h.trail
    obtain ⟨r', hr'⟩ := h'.trail
    exact ⟨r' + r, by rw [hr', hr, List.replicate_add, List.append_assoc]⟩
  tlb := by
    have hfresh : k.freshTlb k.cr3 = k₀.freshTlb k₀.cr3 := by
      rw [h.calm.cr3, h.freshTlb]
    rcases h'.tlb with ⟨ht, htr⟩ | ht
    · rcases h.tlb with ⟨ht', htr'⟩ | ht'
      · exact .inl ⟨ht.trans ht', htr.trans htr'⟩
      · exact .inr (ht.trans ht')
    · exact .inr (ht.trans hfresh)

theorem mem_useBuf {x : Nat} (h : x ∈ (k.useBuf b).bufs) : x = b ∨ x ∈ k.bufs := by
  rcases List.mem_cons.mp (List.mem_of_mem_take h) with h | h
  · exact .inl h
  · exact .inr (List.mem_of_mem_erase h)

theorem onlyDisk_fetched (hb : b < fsSize) : OnlyDisk k (k.fetched b) := by
  have hbufs (k : Kernel) (h : ∀ x ∈ k.bufs, x < fsSize) : ∀ x ∈ (k.useBuf b).bufs, x < fsSize := by
    intro x hx
    rcases mem_useBuf hx with rfl | hx
    · exact hb
    · exact h x hx
  by_cases hmem : b ∈ k.bufs
  · rw [Kernel.fetched, if_pos hmem]
    exact ⟨rfl, hbufs k, ⟨0, rfl⟩, .inl ⟨rfl, rfl⟩⟩
  · rw [Kernel.fetched, if_neg hmem]
    exact ⟨rfl, hbufs k, ⟨1, rfl⟩, .inr rfl⟩

theorem onlyDisk_flushed (data : Block) : OnlyDisk k (k.flushed b data) :=
  ⟨rfl, id, ⟨1, rfl⟩, .inr rfl⟩

theorem OnlyDisk.onOwnTable (h : OnlyDisk k k') (hk : k.OnOwnTable) : k'.OnOwnTable := by
  obtain ⟨p, hp, hcr3⟩ := hk
  exact ⟨p, h.calm.cur.trans hp, by rw [h.calm.cr3, h.calm.pgdir, hcr3]⟩

theorem fetched_disk : (k.fetched b).disk = k.disk := by
  rw [Kernel.fetched]
  split <;> rfl

/-- While a page is being written: the blocks `js` are still to come. -/
structure Writing (k s : Kernel) (f n : Nat) (js : List Nat) : Prop where
  only : OnlyDisk k s
  todo : ∀ j ∈ js, j < blocksPerSlot
  done : ∀ j, j < blocksPerSlot → j ∉ js → ∀ i, s.disk (swapBlock n j) i = k.mem f (j * blockWords + i)
  other : ∀ b, (∀ j, j < blocksPerSlot → b ≠ swapBlock n j) → s.disk b = k.disk b

theorem writeBlock_spec {s : Kernel} {js : List Nat} (hn : n < numSlots) (hk : k.OnOwnTable)
    (h : Writing k s f n (j :: js)) :
    wp (writeBlock f n j) s
      (fun _ s' => Writing k s' f n js ∧ s'.tlb = k.freshTlb k.cr3 ∧ s'.sinceReload = []) E := by
  have hj := h.todo j List.mem_cons_self
  have hb := swapBlock_lt_fsSize hn hj
  have h₁ := h.only.trans (onlyDisk_fetched hb)
  rw [writeBlock, wp_bind, wp_bread hb (h.only.onOwnTable hk), wp_bind, wp_get,
    wp_bwrite hb (h₁.onOwnTable hk)]
  have h₂ := onlyDisk_flushed (k := s.fetched (swapBlock n j)) (b := swapBlock n j)
    fun i => (s.fetched (swapBlock n j)).mem f (j * blockWords + i)
  have hother {b : Nat} (hne : b ≠ swapBlock n j) :
      ((s.fetched (swapBlock n j)).flushed (swapBlock n j)
        fun i => (s.fetched (swapBlock n j)).mem f (j * blockWords + i)).disk b = s.disk b := by
    rw [Kernel.flushed, Kernel.lcr3]
    simp only [update_of_ne hne, fetched_disk]
  refine ⟨⟨h₁.trans h₂, fun x hx => h.todo x (List.mem_cons_of_mem j hx), fun x hx hnot i => ?_,
    fun b hne => ?_⟩, ?_, rfl⟩
  · by_cases hxj : x = j
    · subst hxj
      rw [Kernel.flushed, Kernel.lcr3]
      simp only [update_self, h₁.mem]
    · have hne : swapBlock n x ≠ swapBlock n j := fun e => hxj (swapBlock_inj hn hn hx hj e).2
      rw [hother hne]
      exact h.done x hx (List.not_mem_cons_of_ne_of_not_mem hxj hnot) i
  · rw [hother (hne j hj)]
    exact h.other b hne
  · rw [← h₁.freshTlb, ← h₁.calm.cr3]
    rfl

/-- All eight blocks are written, and `%cr3` has been loaded since any translation was used. -/
theorem writeToSwap_spec (hn : n < numSlots) (hk : k.OnOwnTable) :
    wp (writeToSwap f n) k
      (fun _ k' => Writing k k' f n [] ∧ k'.tlb = k.freshTlb k.cr3 ∧ k'.sinceReload = []) E := by
  have hstep (x : Nat) (xs : List Nat) (s : Kernel) (h : Writing k s f n (x :: xs)) :
      wp (writeBlock f n x) s (fun _ s' => Writing k s' f n xs ∧
        (xs ≠ List.range blocksPerSlot → s'.tlb = k.freshTlb k.cr3 ∧ s'.sinceReload = [])) E :=
    wp_mono (writeBlock_spec hn hk h) (fun _ _ hk => hk.imp_right fun h _ => h) fun _ _ he => he
  rw [writeToSwap]
  refine wp_mono (wp_forEach (I := fun js s => Writing k s f n js ∧
    (js ≠ List.range blocksPerSlot → s.tlb = k.freshTlb k.cr3 ∧ s.sinceReload = []))
    (fun x xs s h => hstep x xs s h.1) (List.range blocksPerSlot) ⟨⟨.refl k, ?_, ?_, ?_⟩, ?_⟩)
    (fun _ s h => ⟨h.1, h.2 (by decide)⟩) fun _ _ he => he
  · exact fun j hj => List.mem_range.mp hj
  · exact fun j hj hnot => absurd (List.mem_range.mpr hj) hnot
  · exact fun _ _ => rfl
  · exact fun hne => absurd rfl hne

/-- Slot `-1`, the answer of `find_free_slot` when no slot is free. -/
theorem wp_writeToSwap_bad {Q : Unit → Kernel → Prop} (hbufs : ∀ b ∈ k.bufs, b < fsSize) :
    wp (writeToSwap f (-1)) k Q E ↔ E .incorrectBlockno k := by
  rw [writeToSwap, show List.range blocksPerSlot = 0 :: [1, 2, 3, 4, 5, 6, 7] from rfl, forEach,
    wp_bind, writeBlock, wp_bind, wp_bread_bad (by decide) hbufs]

end Xv6.Swap
