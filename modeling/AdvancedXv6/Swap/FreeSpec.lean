import AdvancedXv6.Swap.MapSpec

/-! `deallocuvm` and `freevm`: a range of pages, and a whole address space, go back to the
allocator and to the slot table. -/

namespace Xv6.Swap
open Function Effect Ownership

variable {im : Image} {k k₀ k' : Kernel} {H : Held} {d f t i n p a va pg lo hi oldsz newsz : Nat}
  {e w perm : Word} {E : Panic → Kernel → Prop} {q : PtePtr} {X : Nat → Nat → Prop}

/-- The page has no contents. -/
def Kernel.Empty (k : Kernel) (d pg : Nat) : Prop := ∀ e, k.entry d pg = some e → names e = none

theorem empty_of_grows {o o' : Option Word} (h : Grows o o')
    (ho : ∀ e, o = some e → names e = none) : ∀ e, o' = some e → names e = none := by
  intro e he
  cases h with
  | none => cases he
  | table => cases he; exact names_zero
  | some hev =>
    cases he
    rw [hev.absent (names_eq_none.mp (ho _ rfl)).1]
    exact ho _ rfl

theorem Quiet.empty (hq : Quiet X k k' H) (hd : k.Live H d) (hpg : pg < tablePages)
    (hx : ¬X d pg) (h : k.Empty d pg) : k'.Empty d pg := empty_of_grows (hq.entry d pg hd hpg hx) h

/-! ### One page -/

/-- The state after `free_swap_slot`. -/
def Kernel.released (k : Kernel) (n : Nat) : Kernel :=
  { k with swapSlots := update k.swapSlots n ⟨0, true⟩ }

theorem still_released (hk : Accounted im k (H.hold (.slot n))) : Still k (k.released n) H where
  calm := .of_eq rfl rfl rfl rfl rfl rfl rfl rfl
  frames _ _ _ _ := rfl
  slots r m _ hm := by
    have hne : m ≠ n := fun e => hk.ref_ne hm (e ▸ rfl)
    refine ⟨rfl, ?_⟩
    rw [Kernel.released]
    simp only [update_of_ne hne]

theorem Wf.released (h : Wf im k (H.hold (.slot n))) : Wf im (k.released n) H where
  acc := by
    refine h.acc.giveSlot (still_released h.acc).sameTables (fun m => ?_) rfl rfl
    by_cases hm : m = n
    · subst hm
      simp [Kernel.released]
    · simp [Kernel.released, hm]
  sane := Sane.still (H := H) (h.sane.held rfl rfl) (still_released h.acc) rfl rfl rfl h.sane.bufs

section Clear
variable (h : Wf im k H) (hd : k.Live H d) (hq : k.walk d a = some q) (ha : a < kernBase)
include h hd hq ha

/-- `*pte = 0`: what the entry named is held by a local variable. -/
theorem Wf.clear : Wf im (k.setPte d a q 0) (H.holds (names (k.load q))) where
  acc := Accounted.setPte (by rw [names_zero]; exact h.acc) hd hq (userPages_of_va ha).1
    (userPages_of_va ha).2
  sane := (h.sane.setPte h.acc hd hq (userPages_of_va ha).1 (fun n hn => by
    rw [names_zero] at hn
    cases hn) (.inl (userPages_of_va ha).2)).held rfl rfl

theorem quiet_clear : Quiet (onePage d (a / pgSize)) k (k.setPte d a q 0) H :=
  Quiet.store h.acc hd hq (userPages_of_va ha).1 (List.not_mem_nil : Event.reload ∉ []) (.inl ⟨rfl, rfl⟩)

theorem empty_clear : (k.setPte d a q 0).Empty d (a / pgSize) := by
  intro e he
  rw [entry_setPte h.acc hd hq (userPages_of_va ha).1 hd (userPages_div (userPages_of_va ha).2),
    if_pos ⟨rfl, rfl⟩] at he
  cases he
  exact names_zero

/-- The order of `deallocuvm`, first `kfree` and then `*pte = 0`, makes no difference. -/
theorem setPte_freed (hp : Present (k.load q)) :
    (k.freed (frameOf (k.load q))).setPte d a q 0 =
      (k.setPte d a q 0).freed (frameOf (k.load q)) := by
  have hne : frameOf (k.load q) ≠ q.frame := by
    intro e
    have := h.acc.exact.unique (Accounted.walk_ref hd hq) (Accounted.user_ref hd
      (userPages_of_va ha).2 (Kernel.entry_of_walk (userPages_of_va ha).1 hq)
      (by rw [names_present hp, e]))
    cases this
  simp only [Kernel.freed, Kernel.setPte, update_of_ne hne.symm, update_comm hne, not_present_zero,
    and_false, if_false]

theorem freePresent (hp : Present (k.load q)) :
    Wf im ((k.freed (frameOf (k.load q))).setPte d a q 0) H ∧
      Quiet (onePage d (a / pgSize)) k ((k.freed (frameOf (k.load q))).setPte d a q 0) H ∧
      ((k.freed (frameOf (k.load q))).setPte d a q 0).Empty d (a / pgSize) := by
  rw [setPte_freed h hd hq ha hp]
  have h₁ := h.clear hd hq ha
  rw [names_present hp] at h₁
  have hq₁ := quiet_clear h hd hq ha
  have hst := still_freed h₁.acc
  have hquiet := hst.quiet_same rfl rfl
  exact ⟨h₁.freed, hq₁.trans hquiet.weaken, hquiet.empty (hq₁.calm.live.mpr hd)
    (lt_tablePages (userPages_of_va ha).2) id (empty_clear h hd hq ha)⟩

theorem freeSwapped (hp : ¬Present (k.load q)) (hs : Swapped (k.load q)) :
    Wf im ((k.released (slotOf (k.load q))).setPte d a q 0) H ∧
      Quiet (onePage d (a / pgSize)) k ((k.released (slotOf (k.load q))).setPte d a q 0) H ∧
      ((k.released (slotOf (k.load q))).setPte d a q 0).Empty d (a / pgSize) := by
  rw [show (k.released (slotOf (k.load q))).setPte d a q 0 =
    (k.setPte d a q 0).released (slotOf (k.load q)) from rfl]
  have h₁ := h.clear hd hq ha
  rw [names_swapped hp hs] at h₁
  have hq₁ := quiet_clear h hd hq ha
  have hquiet := (still_released h₁.acc).quiet_same rfl rfl
  exact ⟨h₁.released, hq₁.trans hquiet.weaken, hquiet.empty (hq₁.calm.live.mpr hd)
    (lt_tablePages (userPages_of_va ha).2) id (empty_clear h hd hq ha)⟩

end Clear

/-! ### A range of pages -/

theorem pgAddr_next (ha : a < kernBase) :
    (pgAddr (pdx a + 1) 0 0 - pgSize + pgSize) / pgSize = (a / pgSize / 1024 + 1) * 1024 ∧
      (pgAddr (pdx a + 1) 0 0 - pgSize + pgSize) % pgSize = 0 := by
  have hpdx : pdx a = a / pgSize / 1024 := pdx_div (by rw [kernBase] at ha; omega)
  have hlt : a / pgSize / 1024 < 512 := by
    rw [kernBase] at ha
    rw [pgSize]
    omega
  rw [pgAddr, Nat.zero_shiftLeft, Nat.or_zero, Nat.or_zero, Nat.shiftLeft_eq, hpdx,
    Nat.mod_eq_of_lt (by omega)]
  rw [pgSize] at hlt ⊢
  omega

theorem deallocLoop_spec (h : Wf im k H) (hd : k.Live H d) (hold : oldsz ≤ kernBase)
    (haln : a % pgSize = 0) (hn : pageCount oldsz ≤ a / pgSize + n) :
    wp (deallocLoop im d oldsz n a) k
      (fun _ k' => Wf im k' H ∧ Quiet (pageRange d (a / pgSize) (pageCount oldsz)) k k' H ∧
        ∀ pg, a / pgSize ≤ pg → pg < pageCount oldsz → k'.Empty d pg) E := by
  have hmul : a / pgSize * pgSize = a := Nat.div_mul_cancel (Nat.dvd_of_mod_eq_zero haln)
  have htable {pg : Nat} (hpg : pg < pageCount oldsz) : pg < userPages :=
    Nat.lt_of_lt_of_le hpg (pageCount_le hold)
  induction n generalizing k a with
  | zero =>
    rw [deallocLoop, wp_pure]
    exact ⟨h, (Quiet.refl k H).weaken, fun pg h₁ h₂ => by omega⟩
  | succ n ih =>
    rw [deallocLoop]
    by_cases hlt : a < oldsz
    · rw [if_pos hlt, wp_bind, wp_get]
      have ha : a < kernBase := Nat.lt_of_lt_of_le hlt hold
      have hpg : a / pgSize < pageCount oldsz := lt_pageCount.mpr (by rw [hmul]; exact hlt)
      -- the rest of the loop, after this page is empty
      have hrest {k₁ : Kernel} (h₁ : Wf im k₁ H) (hq₁ : Quiet (onePage d (a / pgSize)) k k₁ H)
          (he : k₁.Empty d (a / pgSize)) : wp (deallocLoop im d oldsz n (a + pgSize)) k₁
          (fun _ k' => Wf im k' H ∧ Quiet (pageRange d (a / pgSize) (pageCount oldsz)) k k' H ∧
            ∀ pg, a / pgSize ≤ pg → pg < pageCount oldsz → k'.Empty d pg) E := by
        have hdiv : (a + pgSize) / pgSize = a / pgSize + 1 := Nat.add_div_right a (by decide)
        have hd₁ := hq₁.calm.live.mpr hd
        refine wp_mono (ih h₁ hd₁ (by rw [Nat.add_mod_right]; exact haln) (by omega) ?_)
          (fun _ k' hpost => ⟨hpost.1, ?_, fun pg hlo hhi => ?_⟩) (fun _ _ he => he)
        · rw [hdiv, Nat.add_mul, hmul, Nat.one_mul]
        · have hq' := hpost.2.1
          rw [hdiv] at hq'
          refine (hq₁.forget ?_).trans (hq'.forget ?_)
          · rintro d' pg _ ⟨rfl, rfl⟩
            exact ⟨rfl, Nat.le_refl _, hpg⟩
          · rintro d' pg _ ⟨rfl, hlo, hhi⟩
            exact ⟨rfl, by omega, hhi⟩
        · obtain ⟨-, hq', he'⟩ := hpost
          rw [hdiv] at hq' he'
          by_cases hpe : pg = a / pgSize
          · subst hpe
            exact hq'.empty hd₁ (lt_tablePages (htable hhi)) (fun hx => by
              have := hx.2.1
              omega) he
          · exact he' pg (by omega) hhi
      cases hq : k.walk d a with
      | none =>
        obtain ⟨hdiv, haln'⟩ := pgAddr_next ha
        have hnone (pg : Nat) (hlo : a / pgSize ≤ pg)
            (hhi : pg < (a / pgSize / 1024 + 1) * 1024) : k.Empty d pg := by
          intro e he
          have hsame : pg / 1024 = pdx a := by
            rw [pdx_div (userPages_of_va ha).1]
            omega
          rw [Kernel.entry, hsame, if_neg (Kernel.walk_none.mp hq)] at he
          cases he
        refine wp_mono (ih h hd haln' (by rw [hdiv]; omega) (Nat.div_mul_cancel
          (Nat.dvd_of_mod_eq_zero haln'))) (fun _ k' hpost => ⟨hpost.1, ?_, fun pg hlo hhi => ?_⟩)
          (fun _ _ he => he)
        · have hq' := hpost.2.1
          rw [hdiv] at hq'
          refine hq'.forget ?_
          rintro d' pg _ ⟨rfl, hlo, hhi⟩
          exact ⟨rfl, by omega, hhi⟩
        · obtain ⟨-, hq', he'⟩ := hpost
          rw [hdiv] at hq' he'
          rcases Nat.lt_or_ge pg ((a / pgSize / 1024 + 1) * 1024) with hlt' | hge
          · refine hq'.empty hd (lt_tablePages (htable hhi)) (fun hx => ?_) (hnone pg hlo hlt')
            have := hx.2.1
            omega
          · exact he' pg hge hhi
      | some q =>
        dsimp only
        by_cases hp : Present (k.load q)
        · have hvalid : im.Valid (frameOf (k.load q)) := h.acc.ref_valid (Accounted.user_ref hd
            (userPages_of_va ha).2 (Kernel.entry_of_walk (userPages_of_va ha).1 hq)
            (names_present hp))
          have h0 : frameOf (k.load q) ≠ 0 := by
            intro e
            have h₁ := hvalid.1
            have h₂ := im.data_lt_kend
            omega
          obtain ⟨hw, hquiet, hempty⟩ := freePresent h hd hq ha hp
          rw [if_pos hp, if_neg h0, wp_bind, wp_kfree hvalid h.sane.unlocked, wp_bind,
            wp_modify]
          exact hrest hw hquiet hempty
        · rw [if_neg hp]
          by_cases hs : Swapped (k.load q)
          · obtain ⟨hw, hquiet, hempty⟩ := freeSwapped h hd hq ha hp hs
            rw [if_pos hs, freeSwapSlot, wp_bind, wp_modify, wp_bind, wp_modify]
            exact hrest hw hquiet hempty
          · rw [if_neg hs]
            refine hrest h (Quiet.refl k H).weaken fun e he => ?_
            rw [Kernel.entry_of_walk (userPages_of_va ha).1 hq] at he
            cases he
            exact names_none hp hs
    · rw [if_neg hlt, wp_pure]
      refine ⟨h, (Quiet.refl k H).weaken, fun pg hlo hhi => ?_⟩
      have := lt_pageCount.mp hhi
      rw [pgSize] at *
      omega

/-- `deallocuvm` for a new size below the old one. -/
theorem deallocuvm_spec (h : Wf im k H) (hd : k.Live H d) (hold : oldsz ≤ kernBase)
    (hlt : newsz < oldsz) :
    wp (deallocuvm im d oldsz newsz) k
      (fun r k' => r = newsz ∧ Wf im k' H ∧
        Quiet (pageRange d (pageCount newsz) (pageCount oldsz)) k k' H ∧
        ∀ pg, pageCount newsz ≤ pg → pg < pageCount oldsz → k'.Empty d pg) E := by
  have hup : pgRoundUp newsz = pageCount newsz * pgSize := pgRoundUp_eq (by omega)
  have hdiv : pgRoundUp newsz / pgSize = pageCount newsz := by
    rw [hup]
    exact Nat.mul_div_cancel _ (by decide)
  rw [deallocuvm, if_neg (by omega), wp_bind]
  refine wp_mono (deallocLoop_spec h hd hold (by rw [hup]; exact Nat.mul_mod_left _ _) (by omega))
    (fun _ k' hpost => ?_) (fun _ _ he => he)
  obtain ⟨h', hq', he'⟩ := hpost
  rw [hdiv] at hq' he'
  rw [wp_pure]
  exact ⟨rfl, h', hq', he'⟩

/-! ### A whole address space -/

theorem tabs_cons_of_pos {is : List Nat} (hp : Present (k.mem d i)) :
    k.tabs d (i :: is) = .frame (frameOf (k.mem d i)) :: k.tabs d is := by
  rw [Kernel.tabs, Kernel.tabs, List.filter_cons_of_pos (by simpa using hp), List.map_cons]

theorem tabs_cons_of_neg {is : List Nat} (hp : ¬Present (k.mem d i)) :
    k.tabs d (i :: is) = k.tabs d is := by
  rw [Kernel.tabs, Kernel.tabs, List.filter_cons_of_neg (by simpa using hp)]

theorem tabs_congr {is : List Nat} (h : k'.mem d = k.mem d) : k'.tabs d is = k.tabs d is := by
  rw [Kernel.tabs, Kernel.tabs, h]

theorem Sane.wreck (h : Sane k (H.build d)) (is : List Nat) : Sane k (H.wreck k₀ d is) :=
  h.sub (fun _ hd => List.mem_cons_of_mem _ hd) rfl

theorem freeTables_spec (is : List Nat) (h : Wf im k (H.wreck k d is)) :
    wp (freeTables im d is) k
      (fun _ k' => Wf im k' (H.hold (.frame d)) ∧ Quiet noPage k k' H) E := by
  induction is generalizing k with
  | nil =>
    rw [freeTables, wp_pure]
    exact ⟨h, .refl k H⟩
  | cons i is ih =>
    rw [freeTables, wp_bind, wp_get]
    by_cases hp : Present (k.mem d i)
    · have h₁ : Wf im k ((H.wreck k d is).hold (.frame (frameOf (k.mem d i)))) := by
        have := h
        rw [Held.wreck, tabs_cons_of_pos hp] at this
        exact this
      have hst := still_freed h₁.acc
      have hmem : (k.freed (frameOf (k.mem d i))).mem d = k.mem d :=
        hst.frames .held d (by simp) (List.mem_append_right _ List.mem_cons_self)
      have h₂ : Wf im (k.freed (frameOf (k.mem d i)))
          (H.wreck (k.freed (frameOf (k.mem d i))) d is) := by
        rw [Held.wreck, tabs_congr hmem]
        exact h₁.freed
      rw [if_pos hp, wp_bind, wp_kfree h₁.held_valid h₁.sane.unlocked]
      have hq : Quiet noPage k (k.freed (frameOf (k.mem d i))) H :=
        (hst.quiet_same rfl rfl).mono (fun _ _ hx => hx) (fun _ hd => hd)
          (fun _ ha => List.mem_append_right _ (List.mem_cons_of_mem _ ha)) fun _ hg => hg
      exact wp_mono (ih h₂) (fun _ k' hk' => hk'.imp_right hq.trans) (fun _ _ he => he)
    · rw [if_neg hp]
      refine ih ?_
      have := h
      rw [Held.wreck, tabs_cons_of_neg hp] at this
      exact this

theorem pageCount_mono {a b : Nat} (h : a ≤ b) : pageCount a ≤ pageCount b := by
  rw [pageCount, pageCount]
  exact Nat.div_le_div_right (Nat.sub_le_sub_right (Nat.add_le_add_right h _) 1)

theorem pageCount_zero : pageCount 0 = 0 := by
  rw [pageCount, pgSize]

theorem pageCount_kernBase : pageCount kernBase = userPages := by
  rw [pageCount, pgSize, kernBase, userPages]

theorem Accounted.not_live (hk : Accounted im k (H.build d)) : ¬k.Live H d := by
  rintro ⟨x, hx⟩
  have hx' : k.Dir (H.build d) x d := by
    cases x with
    | held => exact List.mem_cons_of_mem _ hx
    | _ => exact hx
  have := hk.exact.unique (r := .dir .held) (s := .dir x) (a := .frame d)
    ⟨d, List.mem_cons_self, rfl⟩ ⟨d, hx', rfl⟩
  cases this
  exact (List.nodup_cons.mp hk.dirs_nodup).1 hx

/-- `freevm` of a directory that no process has. -/
theorem freevm_spec (h : Wf im k (H.build d)) :
    wp (freevm im d) k (fun _ k' => Wf im k' H ∧ Quiet noPage k k' H) E := by
  have hd : k.Live (H.build d) d := ⟨.held, List.mem_cons_self⟩
  have hnot := h.acc.not_live
  rw [freevm, if_neg (hd.valid h.acc).ne_null]
  dsimp only
  rw [wp_bind]
  refine wp_mono (deallocuvm_spec h hd (Nat.le_refl _) (by decide))
    (fun _ k₁ hpost => ?_) (fun _ _ he => he)
  obtain ⟨_, h₁, hq₁, he₁⟩ := hpost
  have h₂ : Wf im k₁ (H.wreck k₁ d (List.range nPdEntries)) := by
    rw [pageCount_zero, pageCount_kernBase] at he₁
    refine ⟨h₁.acc.dismantle fun pg e hpg he => he₁ pg (Nat.zero_le pg) hpg e he, ?_⟩
    exact h₁.sane.wreck _
  have hq : Quiet noPage k k₁ H := by
    refine hq₁.unbuild.forget ?_
    rintro d' pg hd' ⟨rfl, _⟩
    exact hnot hd'
  rw [wp_bind]
  refine wp_mono (freeTables_spec _ h₂) (fun _ k₃ hpost => ?_) (fun _ _ he => he)
  obtain ⟨h₃, hq₃⟩ := hpost
  exact wp_mono (kfree_spec h₃) (fun _ k' hk' => hk'.imp_right (hq.trans hq₃).trans)
    (fun _ _ he => he)

end Xv6.Swap
