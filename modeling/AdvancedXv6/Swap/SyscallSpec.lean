import AdvancedXv6.Swap.Spaces

/-! The system calls between two returns to user mode: each keeps the memory accounted for. -/

namespace Xv6.Swap
open Function Effect Ownership

variable {im : Image} {k k₀ k₁ k₂ k₃ k' : Kernel} {H : Held} {c d f i n p q va pg sz : Nat} {e w : Word}
  {pr : Proc} {A : Nat → Kernel → Prop} {E : Panic → Kernel → Prop} {lost ns : List Nat}
  {X : Nat → Nat → Prop}

/-! ### What other processes see -/

/-- The directories in use stay in use, and their pages keep contents and permissions. -/
structure Mild (k k' : Kernel) (H : Held) : Prop where
  cur : k'.cur = k.cur
  cr3 : k'.cr3 = k.cr3
  live : ∀ d, k.Live H d → k'.Live H d
  page : ∀ d pg, k.Live H d → pg < userPages → k'.page d pg = k.page d pg
  loose : k.Live H k.cr3 → ∀ pg, pg < tablePages → k'.Loose pg → k.Loose pg
  trail : ∃ evs, k'.trail = evs ++ k.trail

theorem Mild.trans (h : Mild k₁ k₂ H) (h' : Mild k₂ k₃ H) : Mild k₁ k₃ H where
  cur := h'.cur.trans h.cur
  cr3 := h'.cr3.trans h.cr3
  live d hd := h'.live d (h.live d hd)
  page d pg hd hpg := (h'.page d pg (h.live d hd) hpg).trans (h.page d pg hd hpg)
  loose hcr3 pg hpg hl := h.loose hcr3 pg hpg (h'.loose (h.cr3 ▸ h.live _ hcr3) pg hpg hl)
  trail := by
    obtain ⟨evs, he⟩ := h.trail
    obtain ⟨evs', he'⟩ := h'.trail
    exact ⟨evs' ++ evs, by rw [he', he, List.append_assoc]⟩

theorem Tame.mild (h : Tame noPage k k' H) : Mild k k' H where
  cur := h.calm.cur
  cr3 := h.calm.cr3
  live _ hd := h.calm.live.mpr hd
  page d pg hd hpg := h.page d pg hd hpg id
  loose hcr3 pg hpg := h.loose hcr3 pg hpg id
  trail := h.trail

theorem Quiet.mild (h : Quiet noPage k k' H) : Mild k k' H := h.tame.mild

theorem OnlyTable.loose (h : OnlyTable k k') (hcr3 : k'.cr3 = k.cr3) (htlb : k'.tlb = k.tlb)
    (htrail : k'.trail = k.trail) (hl : k'.Loose pg) : k.Loose pg := by
  obtain ⟨⟨e, he, hno⟩, hp⟩ := hl
  rw [htlb] at he
  refine ⟨⟨e, he, fun hag => hno ?_⟩, fun hpend => hp ?_⟩
  · rw [hcr3, h.entry]
    exact hag
  · rw [Kernel.Pending, Kernel.sinceReload, htrail, hcr3]
    exact hpend

theorem OnlyTable.mild (h : OnlyTable k k') (hcur : k'.cur = k.cur) (hcr3 : k'.cr3 = k.cr3)
    (htlb : k'.tlb = k.tlb) (htrail : k'.trail = k.trail)
    (hlive : ∀ d, k.Live H d → k'.Live H d) : Mild k k' H where
  cur := hcur
  cr3 := hcr3
  live := hlive
  page d pg _ _ := h.page d pg
  loose _ _ _ := h.loose hcr3 htlb htrail
  trail := ⟨[], htrail⟩

/-! ### The invariant between system calls -/

/-- What a run of system calls has left behind. -/
def leaving (lost : List Nat) : Held := ⟨[], [], lost, none⟩

/-- Nothing is mapped from the end of a process on, and an unused slot of the process table has no
kernel stack. -/
structure Ends (k : Kernel) : Prop where
  tails : ∀ i, i < nProc → HasVm (k.proc i).state → ∀ pg, pageCount (k.proc i).sz ≤ pg →
    pg < userPages → k.page (k.proc i).pgdir pg = none
  kstacks : ∀ i, i < nProc → ((k.proc i).state = .unused ↔ (k.proc i).kstack = nullFrame)

structure Good (im : Image) (k : Kernel) (lost : List Nat) : Prop where
  wf : Wf im k (leaving lost)
  ends : Ends k

/-- No translation is stale for another reason than an eviction since the last reload. -/
def Kernel.Tight (k : Kernel) : Prop := ∀ pg, pg < tablePages → ¬k.Loose pg

theorem Good.live (h : Good im k lost) (hp : k.cur = some p) :
    k.Live (leaving lost) (k.proc p).pgdir := ⟨_, h.wf.sane.dir_cur hp⟩

theorem Good.tight (h : Good im k lost) (hp : k.cur = some p) (hm : Mild k k' (leaving lost))
    (ht : k.Tight) : k'.Tight :=
  fun pg hpg hl => ht pg hpg (hm.loose (h.wf.sane.live_cr3 hp) pg hpg hl)

theorem page_eq_none : k.page d pg = none ↔ k.Empty d pg := by
  rw [Kernel.page, Kernel.Empty]
  cases k.entry d pg with
  | none => simp
  | some e =>
    cases hn : names e with
    | none => simp [hn]
    | some a => simp [hn]

theorem Good.empty (h : Good im k lost) (hp : k.cur = some p)
    (hlo : pageCount (k.proc p).sz ≤ pg) (hpg : pg < userPages) : k.Empty (k.proc p).pgdir pg := by
  obtain ⟨hlt, hst, _⟩ := h.wf.sane.run p hp
  exact page_eq_none.mp (h.ends.tails p hlt (.inl (by rw [hst]; exact .inr (.inl rfl))) pg hlo hpg)

/-! ### `%cr3` -/

theorem not_stale_lcr3 (d : Nat) : ¬(k.lcr3 d).Stale pg := not_stale_of_fresh rfl

theorem tight_lcr3 (d : Nat) : (k.lcr3 d).Tight := fun _ _ hl => not_stale_lcr3 d hl.1

/-- `switchuvm` of the process that runs. -/
theorem Wf.reload (h : Wf im k H) (hp : k.cur = some p) : Wf im (k.lcr3 (k.proc p).pgdir) H := by
  refine h.rename ⟨rfl⟩ (fun _ y => y) (fun x d => ?_) (fun _ => rfl) rfl rfl h.acc.dirs_nodup
    h.sane.size h.sane.gone fun q hq => ?_
  · simp only [exists_eq_left]
    cases x <;> exact Iff.rfl
  · obtain ⟨hlt, hst, _⟩ := h.sane.run q hq
    obtain rfl : p = q := Option.some.inj (hp.symm.trans hq)
    exact ⟨hlt, hst, rfl⟩

theorem onlyTable_lcr3 (d : Nat) : OnlyTable k (k.lcr3 d) := ⟨rfl⟩

theorem Good.reload (h : Good im k lost) (hp : k.cur = some p) :
    Good im (k.lcr3 (k.proc p).pgdir) lost :=
  ⟨h.wf.reload hp, fun i hi hs pg hlo hpg =>
    ((onlyTable_lcr3 _).page _ pg).trans (h.ends.tails i hi hs pg hlo hpg), h.ends.kstacks⟩

/-! ### `sbrk` -/

/-- The process that runs gets the size `sz`. -/
def Kernel.resize (k : Kernel) (p sz : Nat) : Kernel := k.setProc p { k.proc p with sz := sz }

theorem onlyTable_resize : OnlyTable k (k.resize p sz) := ⟨rfl⟩

/-- The pages of the running process changed in a range up to the old or the new size. -/
theorem Good.resize (h : Good im k lost) (hp : k.cur = some p) (hw : Wf im k' (leaving lost))
    (hq : Quiet X k k' (leaving lost)) (hX : ∀ d pg, X d pg → d = (k.proc p).pgdir)
    (hsz : sz ≤ kernBase)
    (hempty : ∀ pg, pageCount sz ≤ pg → pg < userPages → k'.Empty (k.proc p).pgdir pg) :
    Good im (k'.resize p sz) lost := by
  obtain ⟨hlt, hst, _⟩ := h.wf.sane.run p hp
  have hdir := h.wf.sane.dir_cur hp
  have hself : (k'.resize p sz).proc p = { k'.proc p with sz := sz } := setProc_self
  have hother {i : Nat} (hi : i ≠ p) : (k'.resize p sz).proc i = k'.proc i := setProc_of_ne hi
  have hrun : (k'.proc p).state = .running := (hq.calm.state p).trans hst
  refine ⟨hw.setProc _ _ Iff.rfl rfl rfl (.inr hsz) (by rintro ⟨⟩) fun _ => hrun, fun i hi hs pg hlo hpg => ?_,
    fun i hi => ?_⟩
  · rw [onlyTable_resize.page]
    by_cases hip : i = p
    · subst hip
      rw [hself] at hlo ⊢
      rw [show ({ k'.proc i with sz := sz } : Proc).pgdir = (k.proc i).pgdir from hq.calm.pgdir i]
      exact page_eq_none.mpr (hempty pg hlo hpg)
    · rw [hother hip] at hs hlo ⊢
      rw [hq.calm.state] at hs
      rw [hq.calm.sz] at hlo
      have hd : k.Dir (leaving lost) (.proc i) (k.proc i).pgdir := ⟨hi, hs, by rintro ⟨⟩, rfl⟩
      rw [hq.calm.pgdir, hq.page _ pg ⟨_, hd⟩ hpg fun hx => ?_]
      · exact h.ends.tails i hi hs pg hlo hpg
      · have := h.wf.acc.exact.unique (r := .dir (.proc i)) (s := .dir (.proc p))
          ⟨_, hd, rfl⟩ ⟨_, hdir, by rw [hX _ _ hx]⟩
        cases this
        exact hip rfl
  · by_cases hip : i = p
    · subst hip
      rw [hself]
      show (k'.proc i).state = _ ↔ (k'.proc i).kstack = _
      rw [hq.calm.state, hq.calm.kstack]
      exact h.ends.kstacks i hi
    · rw [hother hip, hq.calm.state, hq.calm.kstack]
      exact h.ends.kstacks i hi

theorem Good.evictable_cur (h : Good im k lost) (hp : k.cur = some p) : Evictable (k.proc p).state := by
  rw [(h.wf.sane.run p hp).2.1]
  exact .inr (.inl rfl)

theorem Good.cur_le (h : Good im k lost) (hp : k.cur = some p) : (k.proc p).sz ≤ kernBase :=
  h.wf.sane.size p (h.wf.sane.run p hp).1 (.inl (h.evictable_cur hp))

theorem Good.alters_refl {R : Space → Space → Prop} (h : Good im k lost) (hp : k.cur = some p)
    (hR : ∀ s, R s s) : Alters k k p R :=
  ⟨fun _ _ _ => rfl, _, _, space_of (h.evictable_cur hp), space_of (h.evictable_cur hp), hR _⟩

/-- The pages of the running process up to `sz` are kept, and filled up with zeros. -/
theorem Good.alters_resize (h : Good im k lost) (hp : k.cur = some p) (hq : Quiet X k k' (leaving lost))
    (hX : ∀ d pg, X d pg → d = (k.proc p).pgdir)
    (hkept : ∀ pg, pg < userPages → pg < pageCount sz → pg < pageCount (k.proc p).sz →
      k'.page (k.proc p).pgdir pg = k.page (k.proc p).pgdir pg)
    (hzero : ∀ pg, pageCount (k.proc p).sz ≤ pg → pg < pageCount sz →
      k'.page (k.proc p).pgdir pg = some zeroPage)
    (hbare : ∀ pg, pageCount sz ≤ pg → pg < userPages → k'.Empty (k.proc p).pgdir pg)
    (hsz : sz ≤ kernBase) : Alters k (k'.resize p sz) p fun s s' => s' = s.resize sz where
  others j hj hjp := by
    have hself : (k'.resize p sz).proc j = k'.proc j := setProc_of_ne hjp
    rw [← hq.tame.space_of_ne h.wf (h.wf.sane.run p hp).1 (h.evictable_cur hp) hX hj hjp]
    exact onlyTable_resize.space (by rw [hself]) (by rw [hself]) (by rw [hself])
  self := by
    have hself : (k'.resize p sz).proc p = { k'.proc p with sz := sz } := setProc_self
    have hpgdir : ((k'.resize p sz).proc p).pgdir = (k.proc p).pgdir := by
      rw [hself]
      exact hq.calm.pgdir p
    have hev : Evictable ((k'.resize p sz).proc p).state := by
      rw [hself]
      exact (hq.calm.state p).symm ▸ h.evictable_cur hp
    refine ⟨_, _, space_of (h.evictable_cur hp), space_of hev, ?_⟩
    rw [hself, Space.resize]
    congr 1
    funext pg
    rw [show ({ k'.proc p with sz := sz } : Proc).pgdir = (k.proc p).pgdir from hq.calm.pgdir p,
      onlyTable_resize.page]
    by_cases hpg : pg < userPages
    · rw [if_pos hpg]
      by_cases hin : pg < pageCount sz
      · rw [if_pos hin]
        by_cases hold : pg < pageCount (k.proc p).sz
        · rw [if_pos hold, hkept pg hpg hin hold]
          exact (if_pos hpg).symm
        · rw [if_neg hold, hzero pg (Nat.not_lt.mp hold) hin]
      · rw [if_neg hin]
        exact page_eq_none.mpr (hbare pg (Nat.not_lt.mp hin) hpg)
    · have hout : ¬pg < pageCount sz := fun hin => hpg (Nat.lt_of_lt_of_le hin (pageCount_le hsz))
      rw [if_neg hpg, if_neg hout]

theorem wp_switchuvm {Q : Unit → Kernel → Prop} :
    wp (switchuvm p) k Q E ↔ Q () (k.lcr3 (k.proc p).pgdir) := by
  rw [switchuvm, wp_modify]

theorem space_lcr3 : (k.lcr3 d).space i = k.space i := (onlyTable_lcr3 d).space Iff.rfl rfl rfl

/-- `p->sz = sz; switchuvm(p); return 0`. -/
theorem grown_spec {Q : Int → Kernel → Prop} (hg : Good im (k.resize p sz) lost)
    (hp : k.cur = some p)
    (hQ : ∀ k', Good im k' lost → k'.cur = some p → k'.Tight → (∀ i, k'.space i = (k.resize p sz).space i) →
      Q 0 k') :
    wp (do
      modify fun k => k.setProc p { k.proc p with sz := sz }
      switchuvm p
      pure 0) k Q E := by
  rw [wp_bind, wp_modify, wp_bind, wp_switchuvm, wp_pure]
  exact hQ _ (hg.reload hp) hp (tight_lcr3 _) fun _ => space_lcr3

/-- `sbrk` keeps the memory accounted for, and changes the address space as `Sbrk` says. Only when it
frees all pages, and returns `-1`, the translations are not reloaded. -/
theorem growproc_spec {n : Int} (hs : Supply im (Running p) E) (h : Good im k lost)
    (hp : k.cur = some p) :
    wp (growproc im n) k
      (fun r k' => Good im k' lost ∧ k'.cur = some p ∧ Alters k k' p (fun s s' => s.Sbrk n r s') ∧ (k.Tight →
        ¬(n < 0 ∧ newSize (k.proc p).sz n = 0 ∧ 0 < (k.proc p).sz) → k'.Tight)) E := by
  have hd := h.live hp
  have hsz := h.cur_le hp
  have hspace := space_of (h.evictable_cur hp)
  have hsame : Good im (k.resize p (k.proc p).sz) lost :=
    h.resize hp h.wf (Quiet.refl k _) (fun _ _ hx => hx.elim) hsz fun _ => h.empty hp
  have hasbefore : Alters k (k.resize p (k.proc p).sz) p fun s s' => s' = s.resize (k.proc p).sz :=
    h.alters_resize hp (Quiet.refl k _) (fun _ _ hx => hx.elim) (fun _ _ _ _ => rfl)
      (fun _ hlo hhi => absurd hhi (Nat.not_lt.mpr hlo)) (fun _ => h.empty hp) hsz
  have hstay : wp (pure (-1) : Kern Int) k (fun r k' => Good im k' lost ∧ k'.cur = some p ∧
      Alters k k' p (fun s s' => s.Sbrk n r s') ∧
      (k.Tight → ¬(n < 0 ∧ newSize (k.proc p).sz n = 0 ∧ 0 < (k.proc p).sz) → k'.Tight)) E :=
    (wp_pure _).mpr ⟨h, hp, h.alters_refl hp fun _ => .inr (.inl ⟨rfl, rfl⟩), fun ht _ => ht⟩
  -- a process of the size `z` at the end
  have hdone {k₁ : Kernel} {z : Nat} (hg : Good im (k₁.resize p z) lost) (hc : k₁.cur = some p)
      (ha : Alters k (k₁.resize p z) p fun s s' => s' = s.resize z)
      (hz : ∀ s : Space, s.sz = (k.proc p).sz → s.target n = z) :
      wp (do
        modify fun k => k.setProc p { k.proc p with sz := z }
        switchuvm p
        pure 0) k₁ (fun r k' => Good im k' lost ∧ k'.cur = some p ∧
          Alters k k' p (fun s s' => s.Sbrk n r s') ∧
          (k.Tight → ¬(n < 0 ∧ newSize (k.proc p).sz n = 0 ∧ 0 < (k.proc p).sz) → k'.Tight)) E := by
    refine grown_spec hg hc fun k' hg' hc' ht hsp => ⟨hg', hc', ?_, fun _ _ => ht⟩
    refine ⟨fun j hj hjp => (hsp j).trans (ha.others j hj hjp), ?_⟩
    obtain ⟨s, s', hs, hs', rfl⟩ := ha.self
    refine ⟨s, _, hs, (hsp p).trans hs', .inl ⟨rfl, ?_⟩⟩
    rw [hspace] at hs
    rw [hz s (by cases hs; rfl)]
  rw [growproc, myproc]
  simp only [wp_bind, wp_get, hp, wp_pure]
  by_cases hpos : 0 < n
  · rw [if_pos hpos, wp_bind, wp_get, wp_bind]
    refine wp_mono (allocuvm_spec (n := 0) hs.source h.wf hd hp hsz hp (fun _ => h.wf.beyond_cur hp)
      fun pg => h.empty hp)
      (fun r k₁ hk₁ => ?_) (fun _ _ he => he)
    rcases hk₁ with ⟨_, rfl, rfl⟩ | ⟨_, hsmall, rfl, rfl⟩ | ⟨hbig, hle, rfl, h₁, _, hq₁, hpages⟩
    · rw [if_pos rfl]
      exact hstay
    · rw [if_neg (by omega)]
      exact hdone hsame hp hasbefore fun s hs => by rw [Space.target, hs, if_pos (.inl ⟨hpos, hsmall⟩)]
    · have hcount : pageCount (k.proc p).sz ≤ pageCount (newSize (k.proc p).sz n) := pageCount_mono hle
      by_cases hz : newSize (k.proc p).sz n = 0
      · have hq₀ : Quiet noPage k k₁ (leaving lost) := hq₁.forget fun d pg _ hx => by
          rw [hz, pageCount_zero] at hx
          exact absurd hx.2.2 (Nat.not_lt_zero pg)
        have hg := h.resize hp h₁ hq₀ (fun _ _ hx => hx.elim) hsz fun pg hlo hpg =>
          hq₀.empty hd (lt_tablePages hpg) id (h.empty hp hlo hpg)
        rw [Kernel.resize, ← hq₁.calm.sz, Kernel.setProc, update_eq_self] at hg
        have hsp (j : Nat) (hj : j < nProc) : k₁.space j = k.space j :=
          hq₀.tame.space h.wf.sane hj fun _ => id
        rw [if_pos hz, wp_pure]
        refine ⟨hg, hq₁.calm.cur.trans hp, ⟨fun j hj _ => hsp j hj, _, _, hspace, ?_, .inr (.inl ⟨rfl, rfl⟩)⟩,
          fun ht _ => h.tight hp hq₀.mild ht⟩
        rw [hsp p (h.wf.sane.run p hp).1, hspace]
      · have hempty (pg : Nat) (hlo : pageCount (newSize (k.proc p).sz n) ≤ pg) (hpg : pg < userPages) :
            k₁.Empty (k.proc p).pgdir pg :=
          hq₁.empty hd (lt_tablePages hpg) (fun hx => absurd hx.2.2 (Nat.not_lt.mpr hlo))
            (h.empty hp (Nat.le_trans hcount hlo) hpg)
        rw [if_neg hz]
        refine hdone (h.resize hp h₁ hq₁ (fun _ _ hx => hx.1) (Nat.le_of_lt (by omega)) hempty)
          (hq₁.calm.cur.trans hp) (h.alters_resize hp hq₁ (fun _ _ hx => hx.1) (fun pg hpg _ hold => ?_)
          (fun pg hlo hhi => (hpages pg hlo hhi).1) hempty (Nat.le_of_lt (by omega))) fun s hs => ?_
        · exact hq₁.page _ pg hd hpg fun hx => absurd hx.2.1 (Nat.not_le.mpr hold)
        · rw [Space.target, hs, if_neg (by omega)]
  · rw [if_neg hpos]
    by_cases hneg : n < 0
    · rw [if_pos hneg, wp_bind, wp_get, wp_bind]
      by_cases hge : (k.proc p).sz ≤ newSize (k.proc p).sz n
      · rw [deallocuvm, if_pos hge, wp_pure]
        by_cases hz : (k.proc p).sz = 0
        · rw [if_pos hz]
          exact hstay
        · rw [if_neg hz]
          exact hdone hsame hp hasbefore fun s hs => by rw [Space.target, hs, if_pos (.inr ⟨hneg, hge⟩)]
      · have hlt : newSize (k.proc p).sz n < (k.proc p).sz := Nat.not_le.mp hge
        refine wp_mono (deallocuvm_spec h.wf hd hsz hlt) (fun r k₁ hpost => ?_)
          (fun _ _ he => he)
        obtain ⟨hr, h₁, hq₁, he₁⟩ := hpost
        subst hr
        have hempty (pg : Nat) (hlo : pageCount (newSize (k.proc p).sz n) ≤ pg)
            (hpg : pg < userPages) : k₁.Empty (k.proc p).pgdir pg := by
          by_cases hin : pg < pageCount (k.proc p).sz
          · exact he₁ pg hlo hin
          · exact hq₁.empty hd (lt_tablePages hpg) (fun hx => hin hx.2.2)
              (h.empty hp (Nat.not_lt.mp hin) hpg)
        by_cases hz : newSize (k.proc p).sz n = 0
        · have hall (pg : Nat) (hpg : pg < userPages) : k₁.Empty (k.proc p).pgdir pg :=
            hempty pg (by rw [hz, pageCount_zero]; omega) hpg
          have hg := h.resize hp h₁ hq₁ (fun _ _ hx => hx.1) hsz fun pg _ => hall pg
          rw [Kernel.resize, ← hq₁.calm.sz, Kernel.setProc, update_eq_self] at hg
          have hev : Evictable (k₁.proc p).state := (hq₁.calm.state p).symm ▸ h.evictable_cur hp
          rw [if_pos hz, wp_pure]
          refine ⟨hg, hq₁.calm.cur.trans hp, ⟨fun j hj hjp => hq₁.tame.space_of_ne h.wf
            (h.wf.sane.run p hp).1 (h.evictable_cur hp) (fun _ _ hx => hx.1) hj hjp, _, _, hspace,
            space_of hev, .inr (.inr ⟨rfl, hneg, hz, Nat.zero_lt_of_lt hlt, ?_⟩)⟩, fun _ hno => absurd ⟨hneg, hz, by omega⟩ hno⟩
          rw [hq₁.calm.sz, hq₁.calm.pgdir]
          congr 1
          funext pg
          by_cases hpg : pg < userPages
          · rw [if_pos hpg, page_eq_none.mpr (hall pg hpg)]
          · rw [if_neg hpg]
        · rw [if_neg hz]
          refine hdone (h.resize hp h₁ hq₁ (fun _ _ hx => hx.1) (by omega) hempty)
            (hq₁.calm.cur.trans hp) (h.alters_resize hp hq₁ (fun _ _ hx => hx.1) (fun pg hpg hin _ => ?_)
            (fun pg hlo hhi => ?_) hempty (by omega)) fun s hs => ?_
          · exact hq₁.page _ pg hd hpg fun hx => absurd hx.2.1 (Nat.not_le.mpr hin)
          · have := pageCount_mono (Nat.le_of_lt hlt)
            omega
          · rw [Space.target, hs, if_neg (by omega)]
    · have hzero : n = 0 := by omega
      have hnew : newSize (k.proc p).sz n = (k.proc p).sz := by
        rw [newSize, hzero, Int.add_zero, Int.emod_eq_of_lt (Int.natCast_nonneg _), Int.toNat_natCast]
        rw [kernBase] at hsz
        omega
      have hid := hasbefore
      rw [Kernel.resize, Kernel.setProc, update_eq_self] at hid
      rw [if_neg hneg, wp_bind, wp_switchuvm, wp_pure]
      refine ⟨h.reload hp, hp, ⟨fun _ _ _ => space_lcr3, ?_⟩, fun _ _ => tight_lcr3 _⟩
      obtain ⟨s, s', hs, hs', hr⟩ := hid.self
      refine ⟨s, s', hs, space_lcr3.trans hs', .inl ⟨rfl, ?_⟩⟩
      rw [hspace] at hs
      rw [hr, Space.target, if_neg (by omega), show s.sz = (k.proc p).sz by cases hs; rfl, hnew]

/-! ### `fork` -/

theorem not_hasVm_unused : ¬HasVm .unused := by
  rintro ((h | h | h) | h) <;> cases h

theorem not_hasVm_embryo : ¬HasVm .embryo := by
  rintro ((h | h | h) | h) <;> cases h

theorem Mild.setProc (hno : ¬HasVm (k.proc i).state) : Mild k (k.setProc i pr) H :=
  OnlyTable.mild ⟨rfl⟩ rfl rfl rfl rfl fun d hd => by
    obtain ⟨x, hx⟩ := hd
    refine ⟨x, ?_⟩
    cases x with
    | proc j =>
      have hj : j ≠ i := fun e => hno (e ▸ hx.2.1)
      simpa only [Kernel.Dir, setProc_of_ne hj] using hx
    | _ => exact hx

/-- A process that is being created: it has a kernel stack and no address space. -/
structure Embryo (k k' : Kernel) (i : Nat) : Prop where
  lt : i < nProc
  state : (k'.proc i).state = .embryo
  kstack : (k'.proc i).kstack ≠ nullFrame
  others : ∀ j, j ≠ i → ∃ r, k'.proc j = { k.proc j with rss := r }

/-- The state after `allocproc` has taken the slot `i` of the process table. -/
def Kernel.embryo (k : Kernel) (i : Nat) : Kernel :=
  { k.setProc i { k.proc i with state := .embryo, pid := k.nextpid } with nextpid := k.nextpid + 1 }

theorem proc_embryo : (k.embryo i).proc i = { k.proc i with state := .embryo, pid := k.nextpid } :=
  setProc_self

theorem proc_embryo_of_ne {j : Nat} (hj : j ≠ i) : (k.embryo i).proc j = k.proc j :=
  setProc_of_ne hj

theorem Wf.embryo (h : Wf im k H) (hun : (k.proc i).state = .unused) (hgone : H.gone = none) :
    Wf im (k.embryo i) H := by
  have hcur : k.cur ≠ some i := fun hc => by
    have := (h.sane.run i hc).2.1
    rw [hun] at this
    cases this
  have := h.setProc i { k.proc i with state := .embryo, pid := k.nextpid }
    (iff_of_false not_hasVm_embryo (hun ▸ not_hasVm_unused)) rfl rfl (.inl rfl)
    (fun hg => by rw [hgone] at hg; cases hg) fun hc => absurd hc hcur
  exact ⟨{ this.acc with }, { this.sane with }⟩

theorem mild_embryo (hun : (k.proc i).state = .unused) : Mild k (k.embryo i) H :=
  (Mild.setProc (hun ▸ not_hasVm_unused)).trans (OnlyTable.mild ⟨rfl⟩ rfl rfl rfl rfl fun _ hd => hd)

/-- `allocproc` finds no slot of the process table, or makes an embryo. -/
theorem allocproc_spec (hs : Supply im A E) (h : Wf im k H)
    (hidle : ∀ i, i < nProc → (k.proc i).state = .unused → (k.proc i).kstack = nullFrame)
    (hgone : H.gone = none) (hA : A (n + 1) k) :
    wp (allocproc im) k
      (fun r k' => (r = none ∧ k' = k ∧ ∀ i, i < nProc → (k.proc i).state ≠ .unused) ∨
        ∃ i, r = some i ∧ (k.proc i).state = .unused ∧ Wf im k' H ∧ A n k' ∧ Mild k k' H ∧
          Embryo k k' i) E := by
  rw [allocproc, wp_bind, wp_get]
  cases hf : (List.range nProc).find? (fun i => (k.proc i).state = .unused) with
  | none =>
    refine (wp_pure _).mpr (.inl ⟨rfl, rfl, fun i hi => ?_⟩)
    simpa using List.find?_eq_none.mp hf i (List.mem_range.mpr hi)
  | some i =>
    have hi : i < nProc := List.mem_range.mp (List.mem_of_find?_eq_some hf)
    have hun : (k.proc i).state = .unused := by simpa using List.find?_some hf
    have halloc := hs.alloc (n := n) (h.embryo hun hgone) (hs.same hA rfl rfl rfl rfl)
    dsimp only
    rw [wp_bind, wp_modify, wp_bind]
    refine wp_mono halloc (fun r k₂ hpost => ?_) (fun _ _ he => he)
    obtain ⟨f, hr, h₂, hq₂, hA₂⟩ := hpost
    subst hr
    obtain ⟨rss, hrss⟩ := hq₂.calm.proc i
    rw [proc_embryo] at hrss
    have hemb : (k₂.proc i).state = .embryo := by rw [hrss]
    have hold : (k₂.proc i).kstack = nullFrame := by
      rw [hrss]
      exact hidle i hi hun
    rw [wp_bind, wp_modify, wp_pure]
    refine .inr ⟨i, rfl, hun, h₂.setStack hi hold, hs.same hA₂ rfl rfl rfl rfl,
      ((mild_embryo hun).trans hq₂.mild).trans (Mild.setProc (hemb ▸ not_hasVm_embryo)), hi, ?_, ?_,
      fun j hj => ?_⟩
    · rw [setProc_self]
      exact hemb
    · rw [setProc_self]
      exact h₂.held_valid.ne_null
    · obtain ⟨rss, hrss⟩ := hq₂.calm.proc j
      rw [proc_embryo_of_ne hj] at hrss
      exact ⟨rss, by rw [setProc_of_ne hj, hrss]⟩

/-- The state after `fork` has filled in the child. -/
def Kernel.adopt (k : Kernel) (i p c : Nat) : Kernel :=
  k.setProc i { k.proc i with
    pgdir := c, sz := (k.proc p).sz, parent := some p, state := .runnable }

theorem onlyTable_adopt : OnlyTable k (k.adopt i p c) := ⟨rfl⟩

/-- The child gets the directory `c`, whose pages end where the parent's do. -/
theorem Good.adopt (h : Good im k lost) (hp : k.cur = some p) (hun : (k.proc i).state = .unused)
    (he : Embryo k k₁ i) (hm₁ : Mild k k₁ (leaving lost)) (hc : Calm k₁ k₂)
    (hm₂ : Mild k₁ k₂ (leaving lost)) (hw : Wf im k₂ ((leaving lost).build c))
    (htail : ∀ pg, pageCount (k.proc p).sz ≤ pg → pg < userPages → k₂.page c pg = none) :
    Good im (k₂.adopt i p c) lost := by
  obtain ⟨hlt, hst, _⟩ := h.wf.sane.run p hp
  have hpi : p ≠ i := by
    rintro rfl
    rw [hst] at hun
    cases hun
  have hother {j : Nat} (hj : j ≠ i) : ∃ r, k₂.proc j = { k.proc j with rss := r } := by
    obtain ⟨r, hr⟩ := he.others j hj
    obtain ⟨r', hr'⟩ := hc.proc j
    exact ⟨r', by rw [hr', hr]⟩
  have hself : (k₂.adopt i p c).proc i = _ := setProc_self
  have hrest {j : Nat} (hj : j ≠ i) : (k₂.adopt i p c).proc j = k₂.proc j := setProc_of_ne hj
  have hsz : (k₂.proc p).sz = (k.proc p).sz := by
    obtain ⟨r, hr⟩ := hother hpi
    rw [hr]
  have hno : ¬HasVm (k₂.proc i).state := by
    rw [hc.state, he.state]
    exact not_hasVm_embryo
  refine ⟨hw.install he.lt hno (.inl rfl) rfl rfl ?_, fun j hj hs pg hlo hpg => ?_, fun j hj => ?_⟩
  · rw [hsz]
    exact h.wf.sane.size p hlt (.inl (by rw [hst]; exact .inr (.inl rfl)))
  · rw [onlyTable_adopt.page]
    by_cases hji : j = i
    · subst hji
      rw [hself] at hlo ⊢
      refine htail pg ?_ hpg
      rw [← hsz]
      exact hlo
    · rw [hrest hji] at hs hlo ⊢
      obtain ⟨r, hr⟩ := hother hji
      rw [hr] at hs hlo ⊢
      have hd : k.Live (leaving lost) (k.proc j).pgdir := ⟨.proc j, hj, hs, by rintro ⟨⟩, rfl⟩
      show k₂.page (k.proc j).pgdir pg = none
      rw [(hm₁.trans hm₂).page _ pg hd hpg]
      exact h.ends.tails j hj hs pg hlo hpg
  · by_cases hji : j = i
    · subst hji
      rw [hself]
      refine iff_of_false (by simp) ?_
      show (k₂.proc j).kstack ≠ nullFrame
      rw [hc.kstack]
      exact he.kstack
    · rw [hrest hji]
      obtain ⟨r, hr⟩ := hother hji
      rw [hr]
      exact h.ends.kstacks j hj

theorem not_evictable_unused : ¬Evictable .unused := fun h => not_hasVm_unused (.inl h)

theorem Good.forks (h : Good im k lost) (hp : k.cur = some p) (hun : (k.proc i).state = .unused)
    (he : Embryo k k₁ i) (hm₁ : Mild k k₁ (leaving lost)) (hc : Calm k₁ k₂) (hm₂ : Mild k₁ k₂ (leaving lost))
    (htail : ∀ pg, pageCount (k.proc p).sz ≤ pg → pg < userPages → k₂.page c pg = none)
    (hcopy : ∃ evs, k₂.trail = evs ++ k₁.trail ∧ ∀ pg, pg < pageCount (k.proc p).sz → (k₂.page c pg).isSome ∧
      (Timely evs (k.proc p).pgdir (pg * pgSize) → k₂.page c pg = k₁.page (k.proc p).pgdir pg)) :
    Forks k (k₂.adopt i p c) p i := by
  have hpi : p ≠ i := by
    rintro rfl
    exact not_evictable_unused (hun ▸ h.evictable_cur hp)
  have hproc {j : Nat} (hj : j ≠ i) : ∃ r, (k₂.adopt i p c).proc j = { k.proc j with rss := r } := by
    obtain ⟨r, hr⟩ := he.others j hj
    obtain ⟨r', hr'⟩ := hc.proc j
    exact ⟨r', by rw [Kernel.adopt, setProc_of_ne hj, hr', hr]⟩
  have hself : (k₂.adopt i p c).proc i = { k₂.proc i with
      pgdir := c, sz := (k₂.proc p).sz, parent := some p, state := .runnable } := setProc_self
  have hsz : (k₂.proc p).sz = (k.proc p).sz := by
    obtain ⟨r, hr⟩ := hproc hpi
    rw [Kernel.adopt, setProc_of_ne hpi] at hr
    rw [hr]
  obtain ⟨evs, hevs, hpages⟩ := hcopy
  obtain ⟨evs₁, hevs₁⟩ := hm₁.trail
  refine ⟨he.lt, space_none (hun ▸ not_evictable_unused), fun j hj hji => ?_, _, _, evs ++ evs₁,
    space_of (h.evictable_cur hp), space_of (by rw [hself]; exact .inl rfl), ?_, ?_, ?_, fun pg htime => ?_⟩
  · obtain ⟨r, hr⟩ := hproc hji
    refine space_congr (by rw [hr]) (by rw [hr]) fun hev pg hpg => ?_
    rw [hr, onlyTable_adopt.page]
    exact (hm₁.trans hm₂).page _ pg ⟨_, h.wf.sane.dir_proc hj hev⟩ hpg
  · rw [hself]
    exact hsz
  · rw [hself, hsz]
    exact whole_mk (h.cur_le hp) (fun pg hpg => (onlyTable_adopt.page c pg).symm ▸ (hpages pg hpg).1) fun pg hlo hpg =>
      (onlyTable_adopt.page c pg).trans (htail pg hlo hpg)
  · show k₂.trail = _
    rw [hevs, hevs₁, List.append_assoc]
  · rw [hself]
    by_cases hpg : pg < userPages
    · show (if pg < userPages then (k₂.adopt i p c).page c pg else none) = if pg < userPages then _ else none
      rw [if_pos hpg, if_pos hpg, onlyTable_adopt.page]
      by_cases hin : pg < pageCount (k.proc p).sz
      · rw [(hpages pg hin).2 (htime hin).of_append]
        exact hm₁.page _ pg (h.live hp) hpg
      · rw [htail pg (Nat.not_lt.mp hin) hpg]
        exact (page_eq_none.mpr (h.empty hp (Nat.not_lt.mp hin) hpg)).symm
    · exact (if_neg hpg).trans (if_neg hpg).symm

/-- As long as `fork` meets no page in the swap area, the memory stays accounted for. -/
theorem fork_spec (hs : Supply im (Running p) E) (h : Good im k lost) (hp : k.cur = some p) :
    wp (fork im) k
      (fun r k' => Shared k'.trail ∨ (Good im k' lost ∧ k'.cur = some p ∧ (k.Tight → k'.Tight) ∧
        (r = -1 ∧ k' = k ∨ r ≠ -1 ∧ ∃ i, Forks k k' p i)))
      (fun e k' => Shared k'.trail ∨ E e k' ∨
        (e = .copyuvmPte ∨ e = .copyuvmPage) ∧ ∃ s, k.space p = some s ∧ ¬s.Whole) := by
  obtain ⟨hlt, hst, _⟩ := h.wf.sane.run p hp
  rw [fork, myproc]
  simp only [wp_bind, wp_get, hp, wp_pure]
  refine wp_mono (allocproc_spec (n := 0) hs h.wf (fun i hi hun => (h.ends.kstacks i hi).mp hun) rfl hp)
    (fun r k₁ hk₁ => ?_) (fun _ _ he => .inr (.inl he))
  rcases hk₁ with ⟨rfl, rfl, -⟩ | ⟨i, rfl, hun, h₁, hA₁, hm₁, hemb⟩
  · exact (wp_pure _).mpr (.inr ⟨h, hp, id, .inl ⟨rfl, rfl⟩⟩)
  have hpi : p ≠ i := by
    rintro rfl
    rw [hst] at hun
    cases hun
  obtain ⟨rss, hrss⟩ := hemb.others p hpi
  have hsz : (k₁.proc p).sz = (k.proc p).sz := by rw [hrss]
  have hpgdir : (k₁.proc p).pgdir = (k.proc p).pgdir := by rw [hrss]
  dsimp only
  rw [wp_bind, wp_get, wp_bind, hsz, hpgdir]
  refine wp_mono (copyuvm_spec (n := 0) hs h₁ (hm₁.live _ (h.live hp)) (h.cur_le hp) hA₁)
    (fun r k₂ hk₂ => ?_) (fun _ _ he => he.imp_right fun he => he.imp_right fun hpost =>
      ⟨hpost.1, _, space_of (h.evictable_cur hp), fun hw => ?_⟩)
  rotate_left
  · obtain ⟨-, pg, hlt, hnone⟩ := hpost
    have hsome := hw.page (h.cur_le hp) hlt
    rw [← hm₁.page _ pg (h.live hp) (Nat.lt_of_lt_of_le hlt (pageCount_le (h.cur_le hp))), hnone] at hsome
    exact Bool.false_ne_true hsome
  rcases hk₂ with hsh | ⟨c, rfl, h₂, _, hq₂, htail, hcopy⟩
  · refine Logs.shared (P := Plain) ?_ hsh
    cases r with
    | none =>
      exact .bind .get fun _ => .bind (kfree_logs im _) fun _ => .bind (.silent fun _ => rfl)
        fun _ => .pure _
    | some c => exact .bind (.silent fun _ => rfl) fun _ => .bind .get fun _ => .pure _
  · simp only [wp_bind, wp_modify, wp_get, wp_pure]
    have hm := hm₁.trans hq₂.mild
    refine .inr ⟨h.adopt hp hun hemb hm₁ hq₂.calm hq₂.mild h₂ htail, hm.cur.trans hp, fun ht pg hpg hl =>
      h.tight hp hm ht pg hpg (onlyTable_adopt.loose rfl rfl rfl hl), .inr ⟨by omega, i, ?_⟩⟩
    exact h.forks hp hun hemb hm₁ hq₂.calm hq₂.mild htail hcopy

end Xv6.Swap
