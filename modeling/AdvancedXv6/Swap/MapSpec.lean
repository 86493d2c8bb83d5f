import AdvancedXv6.Swap.Stock
import AdvancedXv6.Swap.Vm

/-! `vm.c`: new page tables and mappings, and the kernel half of a page directory. -/

namespace Xv6.Swap
open Function Effect Ownership

variable {im : Image} {k k₀ k' : Kernel} {H : Held} {d f t i n p a va pg : Nat} {e w perm : Word}
  {A : Nat → Kernel → Prop} {E : Panic → Kernel → Prop} {q : PtePtr} {X : Nat → Nat → Prop}

/-- One page of one address space. -/
def onePage (d pg d' pg' : Nat) : Prop := d' = d ∧ pg' = pg

/-- The pages from `lo` up to `hi` of one address space. -/
def pageRange (d lo hi d' pg : Nat) : Prop := d' = d ∧ lo ≤ pg ∧ pg < hi

theorem Image.Valid.lt (h : im.Valid f) : f < 1048576 := h.2.trans (by decide)

theorem Image.Valid.ne_null (h : im.Valid f) : f ≠ nullFrame := by
  rintro rfl
  exact absurd h.2 (by decide)

/-! ### A new page table -/

/-- The directory entry for a new page table. -/
def pdeOf (t : Nat) : Word := v2p t ||| pteP ||| pteW ||| pteU

theorem pdeOf_eq (t : Nat) : pdeOf t = mapEntry t (pteW ||| pteU) := by
  rw [pdeOf, mapEntry]
  simp only [BitVec.or_assoc]
  congr 1

theorem present_pdeOf (t : Nat) : Present (pdeOf t) := by
  rw [pdeOf_eq]
  exact present_mapEntry t _

theorem frameOf_pdeOf (ht : im.Valid t) : frameOf (pdeOf t) = t := by
  rw [pdeOf_eq]
  exact frameOf_mapEntry ht.lt (by decide)

/-- The state after `walkpgdir` has entered the zeroed page `t` in the directory. -/
def Kernel.addTable (k : Kernel) (d i t : Nat) : Kernel :=
  k.setPage d (update (k.mem d) i (pdeOf t))

section AddTable
variable (h : Wf im k (H.hold (.frame t))) (hz : k.mem t = fun _ => 0) (hd : k.Live H d)
  (hi : i < nPdEntries) (hnp : ¬Present (k.mem d i))
include h hz hd

theorem entry_addTable {d' : Nat} (hd' : k.Live H d') (hpg : pg < tablePages) :
    (k.addTable d i t).entry d' pg =
      if d' = d ∧ pg / 1024 = i then some 0 else k.entry d' pg :=
  entry_setPde h.acc hz hd (present_pdeOf t) (frameOf_pdeOf h.held_valid) hd'
    (tablePages_div.mp hpg)

include hnp

theorem appears_addTable {d' : Nat} (hd' : k.Live H d') (hpg : pg < tablePages) :
    Appears (k.entry d' pg) ((k.addTable d i t).entry d' pg) := by
  rw [entry_addTable h hz hd hd' hpg]
  by_cases hx : d' = d ∧ pg / 1024 = i
  · obtain ⟨rfl, hx⟩ := hx
    rw [if_pos ⟨rfl, hx⟩]
    refine .inr ⟨?_, rfl⟩
    rw [Kernel.entry, hx, if_neg hnp]
  · rw [if_neg hx]
    exact .inl rfl

theorem stock_addTable : (k.addTable d i t).stock = k.stock := by
  refine stock_eq h (.of_eq rfl rfl rfl rfl rfl rfl rfl rfl) rfl rfl rfl (fun _ => rfl)
    fun j hj hev pg hpg => ?_
  have hlt := lt_tablePages (Nat.lt_of_lt_of_le hpg (pageCount_le (h.sane.size j hj (.inl hev))))
  rw [Kernel.In, Kernel.In]
  rcases appears_addTable h hz hd hnp ⟨_, (h.sane.held (G := H) rfl rfl).dir_proc hj hev⟩ hlt with hs | ⟨hs, hs'⟩
  · rw [hs]
  · rw [hs, hs']
    constructor
    · rintro ⟨e, he, hp⟩
      cases he
      exact absurd hp (by decide)
    · rintro ⟨e, he, -⟩
      cases he

include hi

theorem Wf.addTable : Wf im (k.addTable d i t) H where
  acc := h.acc.setPde hz hd hi hnp (present_pdeOf t) (frameOf_pdeOf h.held_valid)
  sane :=
    { h.sane.held (G := H) rfl rfl with
      perm := by
        intro d' pg e n hd' hpg he ha
        rcases appears_addTable h hz hd hnp hd' (lt_tablePages hpg) with hs | ⟨_, hs⟩
        · rw [hs] at he
          exact h.sane.perm d' pg e n hd' hpg he ha
        · rw [hs] at he
          cases he
          rw [names_zero] at ha
          cases ha
      upper := by
        intro d' pg e hd' hlo hpg he
        rcases appears_addTable h hz hd hnp hd' hpg with hs | ⟨_, hs⟩
        · rw [hs] at he
          exact h.sane.upper d' pg e hd' hlo hpg he
        · rw [hs] at he
          cases he
          exact ⟨by decide, by decide⟩
      gone := h.sane.gone
      run := h.sane.run }

omit hi in
theorem page_addTable {d' : Nat} (hd' : k.Live H d') (hpg : pg < userPages) :
    (k.addTable d i t).page d' pg = k.page d' pg := by
  rw [Kernel.page, Kernel.page]
  rcases appears_addTable h hz hd hnp hd' (lt_tablePages hpg) with hs | ⟨hs, hs'⟩
  · rw [hs]
    cases he : k.entry d' pg with
    | none => rfl
    | some e =>
      cases ha : names e with
      | none => simp [ha]
      | some a =>
        have hcont : (k.addTable d i t).contents a = k.contents a := by
          cases a with
          | slot n => rfl
          | frame g =>
            have hne : g ≠ d := by
              rintro rfl
              obtain ⟨x, hx⟩ := hd
              exact Ref.noConfusion (h.acc.exact.unique (r := .user d' pg) (s := .dir x)
                (a := .frame g) ⟨hd', hpg, e, he, ha⟩ ⟨g, hx, rfl⟩)
            funext j
            rw [Kernel.contents, Kernel.contents, Kernel.addTable, setPage_mem_of_ne hne]
        simp [ha, hcont]
  · rw [hs, hs', Option.bind_some, names_zero]
    rfl

theorem Quiet.addTable (hX : ∃ pg, X d pg ∧ pg / 1024 = i) :
    Quiet X k (k.addTable d i t) H where
  calm := .of_eq rfl rfl rfl rfl rfl rfl rfl rfl
  frames f hf := by
    refine setPage_mem_of_ne ?_ _
    rintro rfl
    obtain ⟨x, hx⟩ := hd
    exact Ref.noConfusion (h.acc.exact.unique (r := .held) (s := .dir x) (a := .frame f)
      (List.mem_cons_of_mem _ hf) ⟨f, hx, rfl⟩)
  slots _ _ := ⟨rfl, rfl⟩
  pde d' j hd' _ hp := by
    have hm := setPde_mem_live (i := i) (w := pdeOf t) (j := j) hd hd'
    rw [Kernel.addTable, hm, if_neg]
    rintro ⟨rfl, rfl⟩
    obtain ⟨pg, hpg, hdiv⟩ := hX
    rcases hp with hp | hp
    · exact hnp hp
    · exact hp pg hpg hdiv
  entry d' pg hd' hpg _ := (appears_addTable h hz hd hnp hd' hpg).grows
  built d' pg hd' hpg _ := appears_addTable h hz hd hnp ⟨.held, hd'⟩ hpg
  page d' pg hd' hpg _ := page_addTable h hz hd hnp hd' hpg
  loose hcr3 pg hpg _ hl := by
    refine ⟨?_, hl.2⟩
    obtain ⟨e, he, hno⟩ := hl.1
    refine ⟨e, he, fun hag => hno ?_⟩
    obtain ⟨e', he', hag⟩ := hag
    rcases appears_addTable h hz hd hnp hcr3 hpg with hs | ⟨hs, _⟩
    · exact ⟨e', hs.trans he', hag⟩
    · rw [hs] at he'
      cases he'
  trail := by
    refine ⟨[], rfl, fun d' pg hd' hpg _ hin => .inl ?_⟩
    obtain ⟨e, he, hp⟩ := hin
    rcases appears_addTable h hz hd hnp hd' (lt_tablePages hpg) with hs | ⟨hs, _⟩
    · exact ⟨e, hs.trans he, hp⟩
    · rw [hs] at he
      cases he

end AddTable

/-- `walkpgdir` with `alloc`: the entry exists afterwards, in an old table or in a new one. -/
theorem walkpgdir_spec (hs : Source im A E) (h : Wf im k H) (hd : k.Live H d) (hva : va < 2 ^ 32)
    (hA : k.walk d va = none → A (n + 1) k) :
    wp (walkpgdir im d va true) k
      (fun r k' => ∃ q, r = some q ∧ k'.walk d va = some q ∧ Wf im k' H ∧
        Quiet (onePage d (va / pgSize)) k k' H ∧
        ((k.walk d va = some q ∧ k' = k) ∨ (k.walk d va = none ∧ k'.load q = 0 ∧ A n k'))) E := by
  rw [walkpgdir, wp_bind, wp_get]
  cases hq : k.walk d va with
  | some q =>
    simp only [wp_pure]
    exact ⟨q, rfl, hq, h, (Quiet.refl k H).weaken, .inl ⟨rfl, trivial⟩⟩
  | none =>
    simp only [not_true_eq_false, if_false, wp_bind]
    refine wp_mono (hs.alloc h (hA hq)) (fun r k₁ hpost => ?_) (fun _ _ he => he)
    obtain ⟨t, hr, h₁, hq₁, hA₁⟩ := hpost
    subst hr
    simp only [wp_bind, wp_modify, wp_pure]
    have hd₁ := hq₁.calm.live.mpr hd
    have hpde : k₁.mem d (pdx va) = k.mem d (pdx va) :=
      hq₁.pde d _ hd (pdx_lt va) (.inr fun _ hx => hx.elim)
    have hnp : ¬Present ((k₁.setPage t fun _ => 0).mem d (pdx va)) := by
      rw [setPage_mem_of_ne (setPde_held_ne h₁.acc hd₁).symm, hpde]
      exact Kernel.walk_none.mp hq
    have h₂ := h₁.fill fun _ => 0
    have hz := setPage_mem_self (k := k₁) (f := t) fun _ => 0
    have hq₂ := hq₁.trans ((still_fill h₁.acc fun _ => 0).quiet_same rfl rfl)
    have hpde₃ : ((k₁.setPage t fun _ => 0).addTable d (pdx va) t).mem d (pdx va) = pdeOf t := by
      rw [Kernel.addTable, setPage_mem_self, update_self]
    refine ⟨⟨t, ptx va⟩, rfl, ?_, h₂.addTable hz hd₁ (pdx_lt va) hnp, hq₂.weaken.trans
      (Quiet.addTable h₂ hz hd₁ (pdx_lt va) hnp ⟨va / pgSize, ⟨rfl, rfl⟩, (pdx_div hva).symm⟩),
      .inr ⟨trivial, ?_, hs.keep hA₁ rfl ((stock_addTable h₂ hz hd₁ hnp).trans (stock_fill h₁ _)) rfl⟩⟩
    · show Kernel.walk ((k₁.setPage t fun _ => 0).addTable d (pdx va) t) d va = _
      rw [Kernel.walk, hpde₃, if_pos (present_pdeOf t), frameOf_pdeOf h₁.held_valid]
    · show ((k₁.setPage t fun _ => 0).addTable d (pdx va) t).mem t (ptx va) = 0
      rw [Kernel.addTable, setPage_mem_of_ne (setPde_held_ne h₁.acc hd₁), hz]

/-! ### Mappings -/

theorem names_mapEntry (hf : im.Valid f) (hperm : perm.toNat < 4096) :
    names (mapEntry f perm) = some (.frame f) := by
  rw [names_present (present_mapEntry f perm), frameOf_mapEntry hf.lt hperm]

theorem names_eq_none : names e = none ↔ ¬Present e ∧ ¬Swapped e := by
  constructor
  · intro h
    refine ⟨fun hp => ?_, fun hs => ?_⟩
    · rw [names_present hp] at h
      cases h
    · by_cases hp : Present e
      · rw [names_present hp] at h
        cases h
      · rw [names_swapped hp hs] at h
        cases h
  · rintro ⟨hp, hs⟩
    exact names_none hp hs

/-- The page lies behind the end of every process that uses the directory. -/
def Kernel.Beyond (k : Kernel) (d pg : Nat) : Prop :=
  ∀ i, i < nProc → Evictable (k.proc i).state → (k.proc i).pgdir = d → pageCount (k.proc i).sz ≤ pg

/-- A store to an entry behind the end of every process. -/
theorem stock_setPte (h : Wf im k H) (hd : k.Live H d) (hq : k.walk d va = some q) (hva : va < 2 ^ 32)
    (hbeyond : k.Beyond d (va / pgSize)) : (k.setPte d va q w).stock = k.stock := by
  refine stock_eq h ⟨fun i => ⟨(k.proc i).rss, rfl⟩, rfl, rfl, rfl, rfl, rfl, rfl, rfl⟩ rfl rfl rfl (fun _ => rfl)
    fun i hi hev pg hlt => ?_
  have hu := Nat.lt_of_lt_of_le hlt (pageCount_le (h.sane.size i hi (.inl hev)))
  rw [Kernel.In, Kernel.In, entry_setPte h.acc hd hq hva ⟨_, h.sane.dir_proc hi hev⟩ (userPages_div hu), if_neg]
  rintro ⟨rfl, rfl⟩
  exact absurd (hbeyond i hi hev rfl) (Nat.not_le.mpr hlt)

/-- How many page tables are missing for the page. -/
def Kernel.tableless (k : Kernel) (d va : Nat) : Nat := if Present (k.mem d (pdx va)) then 0 else 1

theorem tableless_le_one : k.tableless d va ≤ 1 := by
  rw [Kernel.tableless]
  split <;> decide

/-- A page of memory in a local variable becomes a page of the address space `d`. -/
theorem mapOne_spec (hs : Source im A E) (h : Wf im k (H.hold (.frame f))) (hd : k.Live H d)
    (hA : A (n + k.tableless d a) k) (ha : a < kernBase) (hperm : perm.toNat < 4096)
    (hbeyond : k.Beyond d (a / pgSize))
    (hempty : ∀ e, k.entry d (a / pgSize) = some e → names e = none) :
    wp (mapLoop im d perm 1 a f) k
      (fun r k' => r = 0 ∧ Wf im k' H ∧ Quiet (onePage d (a / pgSize)) k k' H ∧ A n k' ∧
        k'.entry d (a / pgSize) = some (mapEntry f perm) ∧ k'.mem f = k.mem f) E := by
  obtain ⟨hva, hpg⟩ := userPages_of_va ha
  rw [mapLoop, wp_bind]
  refine wp_mono (walkpgdir_spec (n := n) hs h hd hva fun hw => ?_) (fun r k₁ hpost => ?_)
    (fun _ _ he => he)
  · rwa [Kernel.tableless, if_neg (Kernel.walk_none.mp hw)] at hA
  obtain ⟨q, hr, hq, h₁, hq₁, hold⟩ := hpost
  subst hr
  have hd₁ : k₁.Live H d := hq₁.calm.live.mpr hd
  have hA₁ : A n k₁ := by
    rcases hold with ⟨hw, rfl⟩ | ⟨_, _, hA₁⟩
    · rwa [Kernel.tableless, if_pos (Kernel.walk_some hw).1] at hA
    · exact hA₁
  have hstock : (k₁.setPte d a q (mapEntry f perm)).stock = k₁.stock := by
    refine stock_setPte h₁ hd₁ hq hva fun i hi hev hdir => ?_
    rw [hq₁.calm.state] at hev
    rw [hq₁.calm.pgdir] at hdir
    rw [hq₁.calm.sz]
    exact hbeyond i hi hev hdir
  have hnone : names (k₁.load q) = none := by
    rcases hold with ⟨hw, rfl⟩ | ⟨_, hz, _⟩
    · exact hempty _ (Kernel.entry_of_walk hva hw)
    · rw [hz, names_zero]
  have hfv := h₁.held_valid
  have hnames := names_mapEntry hfv hperm
  simp only [wp_bind, wp_get, wp_ite, wp_throw, wp_modify, mapLoop, wp_pure]
  refine ⟨fun hpres => absurd hpres (names_eq_none.mp hnone).1, fun _ => ?_⟩
  have hacc : Accounted im (k₁.setPte d a q (mapEntry f perm)) (H.holds (names (k₁.load q))) :=
    Accounted.setPte (by rw [hnames]; exact h₁.acc) hd₁ hq hva hpg
  rw [hnone] at hacc
  have hsane := h₁.sane.setPte h₁.acc hd₁ hq hva (w := mapEntry f perm) (fun n hn => by
    rw [hnames] at hn
    cases hn) (.inl hpg)
  refine ⟨trivial, ⟨hacc, hsane.held rfl rfl⟩, hq₁.unhold.trans
    (Quiet.store h₁.acc hd₁ hq hva (List.not_mem_nil : Event.reload ∉ []) (.inl ⟨rfl, rfl⟩)).unhold,
    hs.keep hA₁ rfl hstock rfl, ?_, ?_⟩
  · rw [entry_setPte h₁.acc hd₁ hq hva hd₁ (userPages_div hpg), if_pos ⟨rfl, rfl⟩]
  · rw [mem_store h₁.acc hd₁ hq (r := .held) List.mem_cons_self (by simp)]
    exact hq₁.frames f List.mem_cons_self

theorem mappages_aligned {size : Nat} (haln : a % pgSize = 0) (hpos : 0 < size)
    (hlim : a + size ≤ 2 ^ 32) :
    mappages im d a size f perm = mapLoop im d perm (pageCount size) a f := by
  have hn : (pgRoundDown ((a + size - 1) % 2 ^ 32) - pgRoundDown a) / pgSize + 1 =
      pageCount size := by
    rw [pgSize] at haln
    rw [pgRoundDown, pgRoundDown, pageCount, pgSize, Nat.mod_eq_of_lt (by omega)]
    omega
  have hdown : pgRoundDown a = a := by
    rw [pgRoundDown, Nat.div_mul_cancel (Nat.dvd_of_mod_eq_zero haln)]
  rw [mappages, hn, hdown]

theorem mappages_page (ha : a < kernBase) (haln : a % pgSize = 0) :
    mappages im d a pgSize f perm = mapLoop im d perm 1 a f := by
  rw [mappages_aligned haln (by decide) (by rw [kernBase] at ha; rw [pgSize]; omega)]
  rfl

theorem page_of_map (hperm : perm.toNat < 4096) (hf : im.Valid f)
    (he : k.entry d pg = some (mapEntry f perm)) :
    k.page d pg = some ⟨fun i => k.mem f i, permOf perm⟩ := by
  rw [Kernel.page, he, Option.bind_some, names_mapEntry hf hperm, Option.map_some,
    permOf_mapEntry]
  rfl

/-! ### Kernel mappings -/

/-- How many of the directory entries `is` are still to be made. -/
def Kernel.absent (k : Kernel) (d : Nat) (is : List Nat) : Nat :=
  is.countP fun i => ¬Present (k.mem d i)

/-- Pages that are not in memory do not appear there by themselves. -/
theorem Quiet.not_in (hq : Quiet X k k' H) (hd : k.Live H d) (hpg : pg < tablePages)
    (hx : ¬X d pg) (h : ¬k.In d pg) : ¬k'.In d pg := by
  rintro ⟨e', he', hp'⟩
  have hg := hq.entry d pg hd hpg hx
  rw [he'] at hg
  cases hg' : k.entry d pg with
  | none =>
    rw [hg'] at hg
    cases hg
    exact absurd hp' (by decide)
  | some e =>
    rw [hg'] at hg
    cases hg with
    | some hev => exact h ⟨e, hg', hev.present hp'⟩

theorem absent_lt {is : List Nat} (hi : i ∈ is) (hno : ¬Present (k.mem d i))
    (hyes : Present (k'.mem d i)) (hle : ∀ j ∈ is, Present (k.mem d j) → Present (k'.mem d j)) :
    k'.absent d is < k.absent d is := by
  induction is with
  | nil => cases hi
  | cons j is ih =>
    have hmono : k'.absent d is ≤ k.absent d is := List.countP_mono_left fun x hx hx' => by
      simp only [decide_eq_true_eq] at hx' ⊢
      exact fun hp => hx' (hle x (List.mem_cons_of_mem j hx) hp)
    simp only [Kernel.absent, List.countP_cons, decide_eq_true_eq] at hmono ih ⊢
    have hj := hle j List.mem_cons_self
    rcases List.mem_cons.mp hi with rfl | hi
    · simp only [hno, hyes, not_true_eq_false, not_false_eq_true, if_true, if_false]
      omega
    · have := ih hi fun x hx => hle x (List.mem_cons_of_mem j hx)
      by_cases hp : Present (k.mem d j)
      · simp only [hp, hj hp, not_true_eq_false, if_false]
        omega
      · simp only [hp, not_false_eq_true, if_true]
        split <;> omega

/-- A range of pages that are not mapped yet. -/
theorem mapKernelLoop_spec {is : List Nat} (hs : Supply im A E) (h : Wf im k H)
    (hd : k.Live H d) (ha : kernBase ≤ a) (hlim : a + n * pgSize ≤ 2 ^ 32)
    (hdirs : ∀ i ∈ is, i < nPdEntries)
    (his : ∀ pg, a / pgSize ≤ pg → pg < a / pgSize + n → pg / 1024 ∈ is) (hperm : ¬Swapped perm ∧ ¬User perm)
    (hA : A (m + k.absent d is) k)
    (hout : ∀ pg, a / pgSize ≤ pg → pg < a / pgSize + n → ¬k.In d pg) :
    wp (mapLoop im d perm n a f) k
      (fun r k' => r = 0 ∧ Wf im k' H ∧ A (m + k'.absent d is) k' ∧
        Quiet (pageRange d (a / pgSize) (a / pgSize + n)) k k' H) E := by
  induction n generalizing k a f with
  | zero =>
    rw [mapLoop, wp_pure]
    exact ⟨rfl, h, hA, (Quiet.refl k H).weaken⟩
  | succ n ih =>
    have hva : a < 2 ^ 32 := by
      rw [pgSize] at hlim
      omega
    have hpg : userPages ≤ a / pgSize := by
      rw [kernBase] at ha
      rw [userPages, pgSize]
      omega
    have hnext : (a + pgSize) / pgSize = a / pgSize + 1 := Nat.add_div_right a (by decide)
    have htab : a / pgSize < tablePages := by
      rw [tablePages, pgSize]
      omega
    have hi : pdx a ∈ is := pdx_div hva ▸ his _ (Nat.le_refl _) (by omega)
    have hin {k₁ : Kernel} (hq₁ : Quiet (onePage d (a / pgSize)) k k₁ H) (pg : Nat)
        (hlo : a / pgSize + 1 ≤ pg) (hhi : pg < a / pgSize + 1 + n) : ¬k₁.In d pg := by
      refine hq₁.not_in hd ?_ (fun hx => ?_) (hout pg (by omega) (by omega))
      · rw [tablePages]
        rw [pgSize] at hlim hhi
        omega
      · have := hx.2
        omega
    rw [mapLoop, wp_bind]
    refine wp_mono (walkpgdir_spec (n := m + k.absent d is - 1) hs.source h hd hva fun hw => ?_)
      (fun r k₁ hpost => ?_) (fun _ _ he => he)
    · refine hs.less ?_ hA
      have : 0 < k.absent d is := List.countP_pos_iff.mpr
        ⟨_, hi, by simpa using Kernel.walk_none.mp hw⟩
      omega
    obtain ⟨q, hr, hq, h₁, hq₁, hold⟩ := hpost
    subst hr
    have hd₁ := hq₁.calm.live.mpr hd
    have hA₁ : A (m + k₁.absent d is) k₁ := by
      rcases hold with ⟨_, rfl⟩ | ⟨hw, _, hA₁⟩
      · exact hA
      · refine hs.less ?_ hA₁
        have := absent_lt hi (Kernel.walk_none.mp hw) (Kernel.walk_some hq).1 fun j hj hp => by
          rw [hq₁.pde d j hd (hdirs j hj) (.inl hp)]
          exact hp
        omega
    have hnp : ¬Present (k₁.load q) := fun hp => by
      rcases hold with ⟨hw, rfl⟩ | ⟨_, hz, _⟩
      · exact hout _ (Nat.le_refl _) (by omega) ⟨_, Kernel.entry_of_walk hva hw, hp⟩
      · rw [hz] at hp
        exact absurd hp (by decide)
    rw [wp_bind, wp_get]
    dsimp only
    rw [if_neg hnp, wp_bind, wp_modify]
    have h₂ : Wf im (k₁.setPte d a q (mapEntry f perm)) H :=
      ⟨h₁.acc.setFlags hd₁ hq hva fun hlt => absurd hlt (Nat.not_lt.mpr hpg),
        h₁.sane.setPte h₁.acc hd₁ hq hva (fun m hm => by
          rw [names_present (present_mapEntry f perm)] at hm
          cases hm) (.inr ⟨(swapped_mapEntry f perm).not.mpr hperm.1,
            (user_mapEntry f perm).not.mpr hperm.2⟩)⟩
    have hq₂ := hq₁.trans
      (Quiet.store (w := mapEntry f perm) h₁.acc hd₁ hq hva (List.not_mem_nil : Event.reload ∉ [])
        (.inl ⟨rfl, rfl⟩))
    have habs : (k₁.setPte d a q (mapEntry f perm)).absent d is = k₁.absent d is := by
      rw [Kernel.absent, Kernel.absent, setPte_mem_live h₁.acc hd₁ hq hd₁]
    refine wp_mono (ih h₂ (hq₂.calm.live.mpr hd) (by omega) ?_ ?_ ?_ ?_)
      (fun r k' hpost => ⟨hpost.1, hpost.2.1, hpost.2.2.1, ?_⟩) (fun _ _ he => he)
    · rw [pgSize] at hlim ⊢
      omega
    · rw [hnext]
      exact fun pg hlo hhi => his pg (by omega) (by omega)
    · rw [habs]
      exact hs.same hA₁ rfl rfl rfl rfl
    · rw [hnext]
      exact hin hq₂
    · have hq' := hpost.2.2.2
      rw [hnext] at hq'
      refine (hq₂.forget ?_).trans (hq'.forget ?_)
      · rintro d' pg _ ⟨rfl, rfl⟩
        exact ⟨rfl, Nat.le_refl _, by omega⟩
      · rintro d' pg _ ⟨rfl, hlo, hhi⟩
        exact ⟨rfl, by omega, by omega⟩

/-! ### The kernel half of a directory -/

/-- The directory entries for the kernel's mappings. -/
def kernelPdes : List Nat := [512, 1016, 1017, 1018, 1019, 1020, 1021, 1022, 1023]

def KmapEntry.size (e : KmapEntry) : Nat := (e.physEnd + 2 ^ 32 - e.physStart) % 2 ^ 32

/-- The first page number after the mapping. -/
def KmapEntry.stop (e : KmapEntry) : Nat := e.virt / pgSize + pageCount e.size

/-- An entry of `kmap` lies above `KERNBASE` and ends at or below the end of the address space. -/
structure KmapEntry.Fits (e : KmapEntry) : Prop where
  base : kernBase ≤ e.virt
  aligned : e.virt % pgSize = 0
  pos : 0 < e.size
  le : e.virt + e.size ≤ 2 ^ 32
  perm : ¬Swapped e.perm ∧ ¬User e.perm
  pdes : ∀ pg, e.virt / pgSize ≤ pg → pg < e.stop → pg / 1024 ∈ kernelPdes

theorem mem_kernelPdes : i ∈ kernelPdes ↔ i = 512 ∨ (1016 ≤ i ∧ i < 1024) := by
  simp only [kernelPdes, List.mem_cons, List.not_mem_nil, or_false]
  omega

theorem kmap_fits (im : Image) : ∀ e ∈ kmap im, e.Fits := by
  have h₁ := im.link_lt_data
  have h₂ := im.data_lt_kend
  have h₃ := im.kend_le
  simp only [extMem, pgSize, physTop] at h₁ h₃
  intro e he
  simp only [kmap, List.mem_cons, List.not_mem_nil, or_false] at he
  rcases he with rfl | rfl | rfl | rfl <;> refine ⟨?_, ?_, ?_, ?_, ⟨by dsimp only; decide, by dsimp only; decide⟩, ?_⟩ <;>
    simp only [KmapEntry.size, KmapEntry.stop, pageCount, mem_kernelPdes, kernBase, kernLink,
      extMem, pgSize, physTop, devSpace] <;> omega

/-- The mappings do not overlap. -/
theorem kmap_sorted (im : Image) :
    (kmap im).Pairwise fun e e' => e.stop ≤ e'.virt / pgSize := by
  have h₁ := im.link_lt_data
  have h₂ := im.data_lt_kend
  have h₃ := im.kend_le
  simp only [extMem, pgSize, physTop] at h₁ h₃
  simp only [kmap, List.pairwise_cons, List.mem_cons, List.not_mem_nil, or_false, forall_eq_or_imp,
    forall_eq, KmapEntry.size, KmapEntry.stop, pageCount, kernBase, kernLink, extMem, pgSize,
    physTop, devSpace]
  refine ⟨⟨?_, ?_, ?_⟩, ⟨?_, ?_⟩, ?_, by simp, .nil⟩ <;> omega

theorem mapKernel_spec (hs : Supply im A E) (es : List KmapEntry) (hes : ∀ e ∈ es, e.Fits)
    (hsorted : es.Pairwise fun e e' => e.stop ≤ e'.virt / pgSize)
    (hout : ∀ e ∈ es, ∀ pg, e.virt / pgSize ≤ pg → pg < e.stop → ¬k.In d pg) (h : Wf im k H)
    (hd : k.Live H d) (hA : A (m + k.absent d kernelPdes) k) :
    wp (mapKernel im d es) k
      (fun r k' => r = true ∧ Wf im k' H ∧ A m k' ∧
        Quiet (pageRange d userPages tablePages) k k' H) E := by
  induction es generalizing k with
  | nil =>
    rw [mapKernel, wp_pure]
    exact ⟨rfl, h, hs.less (Nat.le_add_right m _) hA, (Quiet.refl k H).weaken⟩
  | cons e es ih =>
    have he := hes e List.mem_cons_self
    have hlim : e.virt + pageCount e.size * pgSize ≤ 2 ^ 32 := by
      have h₁ := he.le
      have h₂ := he.aligned
      rw [pgSize] at h₂
      rw [pageCount, pgSize]
      omega
    have htop : e.stop ≤ tablePages := by
      rw [KmapEntry.stop, tablePages]
      rw [pgSize] at hlim ⊢
      omega
    have hbase : userPages ≤ e.virt / pgSize := by
      have := he.base
      rw [kernBase] at this
      rw [userPages, pgSize]
      omega
    obtain ⟨hnext, hsorted⟩ := List.pairwise_cons.mp hsorted
    rw [mapKernel, wp_bind, ← KmapEntry.size, mappages_aligned he.aligned he.pos he.le]
    refine wp_mono (mapKernelLoop_spec hs h hd he.base hlim
      (fun i hi => by rcases mem_kernelPdes.mp hi with rfl | hi <;> rw [nPdEntries] <;> omega)
      he.pdes he.perm hA (hout e List.mem_cons_self)) (fun r k₁ hpost => ?_)
      (fun _ _ he => he)
    obtain ⟨hr, h₁, hA₁, hq₁⟩ := hpost
    subst hr
    rw [if_neg (by decide)]
    refine wp_mono (ih (fun x hx => hes x (List.mem_cons_of_mem e hx)) hsorted
      (fun x hx pg hlo hhi => ?_) h₁ (hq₁.calm.live.mpr hd) hA₁)
      (fun r k' hk' => ⟨hk'.1, hk'.2.1, hk'.2.2.1, (hq₁.forget ?_).trans hk'.2.2.2⟩) (fun _ _ he => he)
    · have hx' := hes x (List.mem_cons_of_mem e hx)
      refine hq₁.not_in hd ?_ (fun hX => ?_) (hout x (List.mem_cons_of_mem e hx) pg hlo hhi)
      · have h₁ := mem_kernelPdes.mp (hx'.pdes pg hlo hhi)
        rw [tablePages]
        omega
      · have h₁ := hX.2.2
        have h₂ := hnext x hx
        rw [KmapEntry.stop] at h₂
        omega
    · rintro d' pg _ ⟨rfl, hlo, hhi⟩
      exact ⟨rfl, by omega, by rw [KmapEntry.stop] at htop; omega⟩

theorem not_present_zero : ¬Present 0 := by decide

theorem live_build {d' : Nat} : k.Live (H.build d) d' ↔ d' = d ∨ k.Live H d' := by
  constructor
  · rintro ⟨x, hx⟩
    cases x with
    | held => exact (List.mem_cons.mp hx).imp id fun hm => ⟨.held, hm⟩
    | proc i => exact .inr ⟨.proc i, hx⟩
    | kernel => exact .inr ⟨.kernel, hx⟩
  · rintro (rfl | ⟨x, hx⟩)
    · exact ⟨.held, List.mem_cons_self⟩
    · refine ⟨x, ?_⟩
      cases x with
      | held => exact List.mem_cons_of_mem _ hx
      | _ => exact hx

section Adopt
variable (h : Wf im k (H.hold (.frame d))) (hz : k.mem d = fun _ => 0)
include h hz

omit h in
theorem adopt_entry : k.entry d pg = none := by
  rw [Kernel.entry, hz, if_neg not_present_zero]

/-- A page of zeros serves as a page directory. -/
theorem Wf.adopt : Wf im k (H.build d) where
  acc := by
    have hne {r : Ref} {b : Res} (hr : r ≠ .held) : k.Refers (H.hold (.frame d)) r b ↔
        k.Refers H r b := refers_holds (o := some (.frame d)) hr
    obtain ⟨hex, hres⟩ := h.acc.drop k (H.build d) (.dir .held) (by simp) rfl
      fun r b hr => by
      rw [hne hr]
      cases r with
      | held => contradiction
      | dir x =>
        cases x with
        | held =>
          simp only [Kernel.Refers, Kernel.Dir, Held.build, List.mem_cons, true_and]
          constructor
          · rintro ⟨d', rfl | hm, rfl⟩
            · exact .inl rfl
            · exact .inr ⟨d', hm, rfl⟩
          · rintro (rfl | ⟨d', hm, rfl⟩)
            · exact ⟨d, .inl rfl, rfl⟩
            · exact ⟨d', .inr hm, rfl⟩
        | _ => simp only [Ref.dir.injEq, reduceCtorEq, false_and, false_or]; exact Iff.rfl
      | tab d' i =>
        simp only [reduceCtorEq, false_and, false_or, Kernel.Refers, live_build]
        constructor
        · rintro ⟨rfl | hd', hi, hp, hb⟩
          · rw [hz] at hp
            exact absurd hp not_present_zero
          · exact ⟨hd', hi, hp, hb⟩
        · exact fun hr => ⟨.inr hr.1, hr.2⟩
      | user d' pg =>
        simp only [reduceCtorEq, false_and, false_or, Kernel.Refers, live_build]
        constructor
        · rintro ⟨rfl | hd', hpg, e, he, ha⟩
          · rw [adopt_entry hz] at he
            cases he
          · exact ⟨hd', hpg, e, he, ha⟩
        · exact fun hr => ⟨.inr hr.1, hr.2⟩
      | _ => simp only [reduceCtorEq, false_and, false_or]; exact Iff.rfl
    refine ⟨hex, h.acc.free_nodup, h.acc.pipes_nodup, hres, ?_, h.acc.count⟩
    refine List.nodup_cons.mpr ⟨fun hm => ?_, h.acc.dirs_nodup⟩
    exact Ref.noConfusion (h.acc.exact.unique (r := .held) (s := .dir .held) (a := .frame d)
      List.mem_cons_self ⟨d, hm, rfl⟩)
  sane :=
    { h.sane with
      perm := by
        intro d' pg e n hd' hpg he ha
        rcases live_build.mp hd' with rfl | hd'
        · rw [adopt_entry hz] at he
          cases he
        · exact h.sane.perm d' pg e n hd' hpg he ha
      upper := by
        intro d' pg e hd' hlo hpg he
        rcases live_build.mp hd' with rfl | hd'
        · rw [adopt_entry hz] at he
          cases he
        · exact h.sane.upper d' pg e hd' hlo hpg he
      gone := h.sane.gone
      run := h.sane.run }

end Adopt

/-- `setupkvm` returns a directory with the kernel's mappings alone. -/
theorem setupkvm_spec (hs : Supply im A E) (h : Wf im k H) (hA : A (n + 10) k) :
    wp (setupkvm im) k
      (fun r k' => ∃ d, r = some d ∧ Wf im k' (H.build d) ∧ A n k' ∧ Quiet noPage k k' H ∧
        ∀ i, i < userPages / 1024 → ¬Present (k'.mem d i)) E := by
  rw [setupkvm, wp_bind]
  refine wp_mono (hs.alloc h hA) (fun r k₁ hpost => ?_) (fun _ _ he => he)
  obtain ⟨d, hr, h₁, hq₁, hA₁⟩ := hpost
  subst hr
  have hz := setPage_mem_self (k := k₁) (f := d) fun _ => 0
  have h₂ := (h₁.fill fun _ => 0).adopt hz
  have hq₂ := hq₁.trans ((still_fill h₁.acc fun _ => 0).quiet_same rfl rfl)
  have habs : (k₁.setPage d fun _ => 0).absent d kernelPdes ≤ 9 := List.countP_le_length
  simp only [wp_bind, wp_modify]
  rw [if_neg (by decide), wp_bind]
  refine wp_mono (mapKernel_spec (m := n) hs (kmap im) (kmap_fits im) (kmap_sorted im)
    (fun _ _ pg _ _ => ?_) h₂ ⟨.held, List.mem_cons_self⟩
    (hs.same (hs.less (by omega) hA₁) rfl rfl rfl rfl)) (fun r k₃ hpost => ?_)
    (fun _ _ he => he)
  · rintro ⟨e, he, _⟩
    rw [adopt_entry hz] at he
    cases he
  obtain ⟨hr, h₃, hA₃, hq₃⟩ := hpost
  subst hr
  have hnot : ¬k₁.Live H d := by
    rintro ⟨x, hx⟩
    cases h₁.acc.exact.unique (r := .held) (s := .dir x) (a := .frame d) List.mem_cons_self ⟨d, hx, rfl⟩
  rw [if_pos rfl, wp_pure]
  refine ⟨d, rfl, h₃, hA₃, hq₂.trans (hq₃.unbuild.forget ?_), fun i hi => ?_⟩
  · rintro d' pg hd' ⟨rfl, _⟩
    exact absurd hd' hnot
  · have hlt : i < nPdEntries := by
      rw [userPages] at hi
      rw [nPdEntries]
      omega
    rw [hq₃.pde d i ⟨.held, List.mem_cons_self⟩ hlt (.inr ?_), hz]
    · exact not_present_zero
    · rintro pg ⟨_, hpg, _⟩
      rw [userPages] at hpg hi
      omega

end Xv6.Swap
