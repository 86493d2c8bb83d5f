import AdvancedXv6.Swap.Wf

/-! `kalloc.c`: what `kfree` and the first branch of `kalloc` do to a well-formed state. -/

namespace Xv6.Swap
open Function Effect Ownership

variable {im : Image} {k k' : Kernel} {H : Held} {f : Nat} {rest : List Nat} {a : Res}

namespace Kernel

/-- The state after `kfree`. -/
def freed (k : Kernel) (f : Nat) : Kernel :=
  { k with
    mem := update k.mem f (junkPage k.freelist)
    freelist := f :: k.freelist
    freePagesCount := k.freePagesCount + 1 }

/-- The state after `kalloc` has taken the head of the list. -/
def taken (k : Kernel) (rest : List Nat) : Kernel :=
  { k with freelist := rest, freePagesCount := k.freePagesCount - 1 }

end Kernel

section Rules
variable {E : Panic → Kernel → Prop}

theorem wp_kfree {Q : Unit → Kernel → Prop} (hv : im.Valid f) (hl : k.kmemLocked = false) :
    wp (kfree im f) k Q E ↔ Q () (k.freed f) := by
  have hj : junkPage k.freelist = update (fun _ => 0x01010101) 0 (linkWord k.freelist) := rfl
  cases hu : k.useLock <;>
    simp [kfree, acquireKmem, releaseKmem, hv, hl, hu, Kernel.freed, Kernel.setPage, hj]

theorem wp_getFreePages {Q : Int → Kernel → Prop} (hl : k.kmemLocked = false) :
    wp getFreePages k Q E ↔ Q k.freePagesCount k := by
  obtain ⟨_, _, _, useLock, kmemLocked, _⟩ := k
  cases hl
  cases useLock <;> simp [getFreePages, acquireKmem, releaseKmem]

theorem wp_kalloc_fast {Q : Option Nat → Kernel → Prop} (hl : k.kmemLocked = false)
    (ht : k.tH < k.freePagesCount) (h0 : 0 < k.freePagesCount) (hf : k.freelist = f :: rest) :
    wp (kalloc im) k Q E ↔ Q (some f) (k.taken rest) := by
  obtain ⟨_, _, _, useLock, kmemLocked, freelist, _⟩ := k
  cases hl
  cases hf
  cases useLock <;>
    simp [kalloc, acquireKmem, releaseKmem, Kernel.taken, show _ < _ from ht, show _ < _ from h0]

end Rules

theorem Accounted.ref_ne {r : Ref} {b : Res} (hk : Accounted im k (H.hold a))
    (hr : k.Refers H r b) : b ≠ a := by
  rintro rfl
  by_cases h : r = .held
  · subst h
    exact (List.nodup_cons.mp hk.res_nodup).1 hr
  · exact h (hk.exact.unique ((refers_holds (o := some b) h).mpr hr) (s := .held)
      List.mem_cons_self)

/-- Nothing refers to a frame that is held. -/
theorem still_setMem {m : Nat → Page} (hk : Accounted im k (H.hold (.frame f)))
    (hm : ∀ g, g ≠ f → m g = k.mem g) (hcalm : Calm k k') (hmem : k'.mem = m)
    (hdisk : k'.disk = k.disk) (hslots : k'.swapSlots = k.swapSlots) : Still k k' H where
  calm := hcalm
  frames r g _ hr := by
    rw [hmem]
    exact hm g fun e => hk.ref_ne hr (e ▸ rfl)
  slots r n _ _ := by
    rw [hslots]
    refine ⟨?_, rfl⟩
    funext i
    rw [Kernel.contents, Kernel.contents, hdisk]

theorem still_freed (hk : Accounted im k (H.hold (.frame f))) : Still k (k.freed f) H :=
  still_setMem hk (fun _ hg => update_of_ne hg _ _) (.of_eq rfl rfl rfl rfl rfl rfl rfl rfl) rfl rfl rfl

theorem Wf.freed (h : Wf im k (H.hold (.frame f))) : Wf im (k.freed f) H where
  acc := h.acc.give (still_freed h.acc).sameTables rfl rfl rfl
  sane := Sane.still (H := H) (h.sane.held rfl rfl) (still_freed h.acc) rfl rfl rfl
    h.sane.bufs

theorem Wf.held_valid (h : Wf im k (H.hold (.frame f))) : im.Valid f :=
  h.acc.ref_valid (r := .held) List.mem_cons_self

theorem still_taken : Still k (k.taken rest) H where
  calm := .of_eq rfl rfl rfl rfl rfl rfl rfl rfl
  frames _ _ _ _ := rfl
  slots _ _ _ _ := ⟨rfl, rfl⟩

theorem Wf.taken (h : Wf im k H) (hf : k.freelist = f :: rest) :
    Wf im (k.taken rest) (H.hold (.frame f)) where
  acc := h.acc.take still_taken.sameTables hf rfl rfl
  sane := (h.sane.still still_taken rfl rfl rfl h.sane.bufs).held rfl rfl

theorem Still.quiet_same (h : Still k k' H) (htlb : k'.tlb = k.tlb) (htrail : k'.trail = k.trail) :
    Quiet noPage k k' H := h.quiet (.inl ⟨htlb, [], htrail, by simp⟩)

/-- `kfree` of a page in a local variable. -/
theorem kfree_spec (h : Wf im k (H.hold (.frame f))) {E : Panic → Kernel → Prop} :
    wp (kfree im f) k (fun _ k' => Wf im k' H ∧ Quiet noPage k k' H) E :=
  (wp_kfree h.held_valid h.sane.unlocked).mpr
    ⟨h.freed, (still_freed h.acc).quiet_same rfl rfl⟩

/-- Zeroing, or otherwise filling, a page in a local variable. -/
theorem still_fill (hk : Accounted im k (H.hold (.frame f))) (p : Page) :
    Still k (k.setPage f p) H :=
  still_setMem hk (fun _ hg => update_of_ne hg _ _) (.of_eq rfl rfl rfl rfl rfl rfl rfl rfl) rfl rfl rfl

theorem fillTables (hk : Accounted im k (H.hold (.frame f))) (p : Page) :
    SameTables k (k.setPage f p) (H.hold (.frame f)) :=
  sameTables_setPage (hk.not_table (r := .held) List.mem_cons_self (by simp) (by simp)) p

theorem Wf.fill (h : Wf im k (H.hold (.frame f))) (p : Page) :
    Wf im (k.setPage f p) (H.hold (.frame f)) where
  acc := fillTables h.acc p |>.accounted h.acc rfl rfl fun _ => rfl
  sane := (Sane.still (H := H) (h.sane.held rfl rfl) (still_fill h.acc p) rfl rfl rfl
    h.sane.bufs).held rfl rfl

end Xv6.Swap
