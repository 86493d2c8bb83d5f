import AdvancedXv6.Swap.FreeSpec

/-! `allocuvm`, and the writes of `exec` to an address space that no process has yet. -/

namespace Xv6.Swap
open Function Effect Ownership

variable {im : Image} {k k₀ k' : Kernel} {H : Held} {d f t i n p a va pg lo hi oldsz newsz : Nat}
  {e w perm : Word} {A : Nat → Kernel → Prop} {E : Panic → Kernel → Prop} {q : PtePtr} {X : Nat → Nat → Prop}

/-- The pages that start at the addresses `as`. -/
def pagesOf (d : Nat) (as : List Nat) (d' pg : Nat) : Prop := d' = d ∧ ∃ a ∈ as, a / pgSize = pg

def zeroPage : UserPage := ⟨fun _ => 0, pteW ||| pteU⟩

theorem permOf_wu : permOf (pteW ||| pteU) = pteW ||| pteU := by decide

theorem in_of_entry {e : Word} (he : k.entry d pg = some e) (hp : Present e) : k.In d pg := ⟨e, he, hp⟩

/-- A page that is in a directory nobody else sees stays in. -/
theorem Quiet.in_built (hq : Quiet X k k' H) (hd : d ∈ H.dirs) (hpg : pg < tablePages)
    (hx : ¬X d pg) (h : k.In d pg) : k'.In d pg := by
  obtain ⟨e, he, hp⟩ := h
  rcases hq.built d pg hd hpg hx with hs | ⟨hn, _⟩
  · exact ⟨e, hs.trans he, hp⟩
  · rw [hn] at he
    cases he

/-- How many page tables the pages at the addresses `as` lack. -/
def Kernel.missing (k : Kernel) (d : Nat) (as : List Nat) : Nat :=
  ((as.map pdx).toFinset.filter fun i => ¬Present (k.mem d i)).card

/-- One page is mapped, and nothing else changes in the directory. -/
theorem missing_cons {as : List Nat} (hpres : Present (k'.mem d (pdx a)))
    (hkeep : ∀ b ∈ as, pdx b ≠ pdx a → k'.mem d (pdx b) = k.mem d (pdx b)) :
    k.missing d (a :: as) = k'.missing d as + k.tableless d a := by
  have herase : ((as.map pdx).toFinset.filter fun i => ¬Present (k'.mem d i)) =
      (((a :: as).map pdx).toFinset.filter fun i => ¬Present (k.mem d i)).erase (pdx a) := by
    ext i
    simp only [Finset.mem_filter, List.mem_toFinset, Finset.mem_erase, List.map_cons, List.mem_cons]
    constructor
    · rintro ⟨hi, hno⟩
      have hne : i ≠ pdx a := by
        rintro rfl
        exact hno hpres
      obtain ⟨b, hb, rfl⟩ := List.mem_map.mp hi
      exact ⟨hne, .inr hi, hkeep b hb hne ▸ hno⟩
    · rintro ⟨hne, hi, hno⟩
      have hi := hi.resolve_left hne
      obtain ⟨b, hb, rfl⟩ := List.mem_map.mp hi
      exact ⟨hi, hkeep b hb hne ▸ hno⟩
  rw [Kernel.missing, Kernel.missing, herase, Kernel.tableless]
  by_cases hp : Present (k.mem d (pdx a))
  · have hmem : pdx a ∉ ((a :: as).map pdx).toFinset.filter fun i => ¬Present (k.mem d i) := by simp [hp]
    rw [if_pos hp, Finset.erase_eq_of_notMem hmem, Nat.add_zero]
  · have hmem : pdx a ∈ ((a :: as).map pdx).toFinset.filter fun i => ¬Present (k.mem d i) := by simp [hp]
    rw [if_neg hp, Finset.card_erase_add_one hmem]

theorem tableless_le {as : List Nat} : k.tableless d a ≤ k.missing d (a :: as) := by
  rw [Kernel.tableless]
  by_cases hp : Present (k.mem d (pdx a))
  · rw [if_pos hp]
    exact Nat.zero_le _
  · rw [if_neg hp]
    exact Finset.card_pos.mpr ⟨pdx a, by simp [hp]⟩

theorem pde_of_entry (hva : va < 2 ^ 32) (he : k.entry d (va / pgSize) = some e) :
    Present (k.mem d (pdx va)) := by
  rw [pdx_div hva]
  by_contra hno
  rw [Kernel.entry, if_neg hno] at he
  cases he

theorem Calm.beyond (h : Calm k k') : k'.Beyond d pg ↔ k.Beyond d pg := by
  simp only [Kernel.Beyond, h.state, h.pgdir, h.sz]

/-- No process has a directory that is being built. -/
theorem Wf.beyond_built (h : Wf im k H) (hd : d ∈ H.dirs) : k.Beyond d pg := by
  rintro i hi hev rfl
  have := h.acc.exact.unique (r := .dir (.proc i)) (s := .dir .held) ⟨_, h.sane.dir_proc hi hev, rfl⟩ ⟨_, hd, rfl⟩
  cases this

/-- The directory of the process that runs is no other's. -/
theorem Wf.beyond_cur (h : Wf im k H) (hp : k.cur = some p) (hpg : pageCount (k.proc p).sz ≤ pg) :
    k.Beyond (k.proc p).pgdir pg := by
  intro i hi hev hdir
  have := h.acc.exact.unique (r := .dir (.proc i)) (s := .dir (.proc p)) ⟨_, h.sane.dir_proc hi hev, rfl⟩
    ⟨_, h.sane.dir_cur hp, by rw [hdir]⟩
  cases this
  exact hpg

theorem allocLoop_spec (hs : Source im A E) (as : List Nat) (h : Wf im k H) (hd : k.Live H d)
    (hA : A (n + as.length + k.missing d as) k) (hbeyond : ∀ a ∈ as, k.Beyond d (a / pgSize))
    (has : ∀ a ∈ as, a < kernBase ∧ a % pgSize = 0) (hnd : (as.map (· / pgSize)).Nodup)
    (hempty : ∀ a ∈ as, k.Empty d (a / pgSize)) :
    wp (allocLoop im d oldsz newsz as) k
      (fun r k' => r = true ∧ Wf im k' H ∧ A n k' ∧ Quiet (pagesOf d as) k k' H ∧
        ∀ a ∈ as, k'.page d (a / pgSize) = some zeroPage ∧
          (d ∈ H.dirs → k'.In d (a / pgSize))) E := by
  induction as generalizing k with
  | nil =>
    rw [allocLoop, wp_pure]
    exact ⟨rfl, h, hA, (Quiet.refl k H).weaken, by simp⟩
  | cons a as ih =>
    obtain ⟨ha, haln⟩ := has a List.mem_cons_self
    obtain ⟨hva, hpg⟩ := userPages_of_va ha
    obtain ⟨hnotin, hnd⟩ := List.nodup_cons.mp hnd
    have hcalls : n + (a :: as).length + k.missing d (a :: as) =
        n + as.length + k.missing d (a :: as) + 1 := by
      rw [List.length_cons]
      omega
    rw [hcalls] at hA
    rw [allocLoop, wp_bind]
    refine wp_mono (hs.alloc h hA) (fun r k₁ hpost => ?_) (fun _ _ he => he)
    obtain ⟨f, hr, h₁, hq₁, hA₁⟩ := hpost
    subst hr
    have h₂ := h₁.fill fun _ => 0
    have hq₂ := hq₁.trans ((still_fill h₁.acc fun _ => 0).quiet_same rfl rfl)
    have hd₂ := hq₂.calm.live.mpr hd
    have htable : (k₁.setPage f fun _ => 0).tableless d a = k.tableless d a := by
      rw [Kernel.tableless, Kernel.tableless, hq₂.pde d _ hd (pdx_lt a) (.inr fun _ hx => hx.elim)]
    have hle : k.tableless d a ≤ k.missing d (a :: as) := tableless_le
    have hA₂ : A (n + as.length + (k.missing d (a :: as) - k.tableless d a) +
        (k₁.setPage f fun _ => 0).tableless d a) (k₁.setPage f fun _ => 0) := by
      rw [htable, Nat.add_assoc, Nat.sub_add_cancel hle]
      exact hs.keep hA₁ rfl (stock_fill h₁ _) rfl
    rw [wp_bind, wp_modify, wp_bind, mappages_page ha haln]
    refine wp_mono (mapOne_spec hs h₂ hd₂ hA₂ ha (by decide)
      (hq₂.calm.beyond.mpr (hbeyond a List.mem_cons_self)) (hq₂.empty hd (lt_tablePages hpg) id (hempty a List.mem_cons_self)))
      (fun r k₃ hpost => ?_) (fun _ _ he => he)
    obtain ⟨hr, h₃, hq₃, hA₃, he₃, hm₃⟩ := hpost
    subst hr
    have hq : Quiet (onePage d (a / pgSize)) k k₃ H := hq₂.weaken.trans hq₃
    have hd₃ := hq.calm.live.mpr hd
    have hpage : k₃.page d (a / pgSize) = some zeroPage := by
      rw [page_of_map (by decide) h₁.held_valid he₃, hm₃, setPage_mem_self, permOf_wu]
      rfl
    have hx : ¬pagesOf d as d (a / pgSize) := fun hx =>
      hnotin (List.mem_map.mpr hx.2)
    have hother (b : Nat) (_ : b ∈ as) (hne : pdx b ≠ pdx a) := hq.pde d (pdx b) hd (pdx_lt b)
      (.inr fun pg hone hdiv => hne (by rw [← hdiv, hone.2, pdx_div hva]))
    rw [missing_cons (pde_of_entry hva he₃) hother, Nat.add_sub_cancel] at hA₃
    rw [if_neg (by decide)]
    refine wp_mono (ih h₃ hd₃ hA₃ (fun b hb => hq.calm.beyond.mpr (hbeyond b (List.mem_cons_of_mem a hb)))
      (fun b hb => has b (List.mem_cons_of_mem a hb))
      hnd fun b hb => ?_) (fun r k' hpost => ⟨hpost.1, hpost.2.1, hpost.2.2.1, ?_, fun b hb => ?_⟩)
      (fun _ _ he => he)
    · have hb' := userPages_of_va (has b (List.mem_cons_of_mem a hb)).1
      refine hq.empty hd (lt_tablePages hb'.2) (fun hone => hnotin ?_)
        (hempty b (List.mem_cons_of_mem a hb))
      exact List.mem_map.mpr ⟨b, hb, hone.2⟩
    · obtain ⟨-, -, -, hq', -⟩ := hpost
      refine (hq.forget ?_).trans (hq'.forget ?_)
      · rintro d' pg _ ⟨rfl, rfl⟩
        exact ⟨rfl, a, List.mem_cons_self, rfl⟩
      · rintro d' pg _ ⟨rfl, b, hb, rfl⟩
        exact ⟨rfl, b, List.mem_cons_of_mem a hb, rfl⟩
    · obtain ⟨-, -, -, hq', hpages⟩ := hpost
      rcases List.mem_cons.mp hb with rfl | hb
      · refine ⟨(hq'.page d _ hd₃ hpg hx).trans hpage, fun hdirs => ?_⟩
        exact hq'.in_built hdirs (lt_tablePages hpg) hx (in_of_entry he₃ (present_mapEntry f _))
      · exact hpages b hb

/-! ### `allocuvm` -/

theorem mem_pagesBetween (hold : oldsz ≤ kernBase) :
    a ∈ pagesBetween oldsz newsz ↔
      a % pgSize = 0 ∧ pageCount oldsz ≤ a / pgSize ∧ a / pgSize < pageCount newsz := by
  rw [pagesBetween, pgRoundUp_eq hold]
  simp only [List.mem_map, List.mem_range]
  constructor
  · rintro ⟨i, hi, rfl⟩
    rw [← Nat.add_mul, Nat.mul_mod_left, Nat.mul_div_cancel _ (by decide)]
    omega
  · rintro ⟨haln, hlo, hhi⟩
    refine ⟨a / pgSize - pageCount oldsz, by omega, ?_⟩
    rw [← Nat.add_mul, Nat.add_sub_cancel' hlo, Nat.div_mul_cancel (Nat.dvd_of_mod_eq_zero haln)]

theorem pagesBetween_nodup (hold : oldsz ≤ kernBase) :
    ((pagesBetween oldsz newsz).map (· / pgSize)).Nodup := by
  rw [pagesBetween, pgRoundUp_eq hold, List.map_map]
  refine List.nodup_range.map fun i j hij => ?_
  simp only [comp_apply] at hij
  rw [← Nat.add_mul, ← Nat.add_mul, Nat.mul_div_cancel _ (by decide),
    Nat.mul_div_cancel _ (by decide)] at hij
  omega

/-- The calls of `kalloc` that growing from `oldsz` to `newsz` makes: for the pages, and for the page
tables they lack. -/
def Kernel.requests (k : Kernel) (d oldsz newsz : Nat) : Nat :=
  (pagesBetween oldsz newsz).length + k.missing d (pagesBetween oldsz newsz)

/-- `allocuvm` that changes nothing, or that adds pages of zeros. -/
theorem allocuvm_spec (hs : Source im A E) (h : Wf im k H) (hd : k.Live H d)
    (hp : k.cur = some p) (hold : oldsz ≤ kernBase)
    (hA : A (n + k.requests d oldsz newsz) k)
    (hbeyond : ∀ pg, pageCount oldsz ≤ pg → k.Beyond d pg)
    (hempty : ∀ pg, pageCount oldsz ≤ pg → pg < userPages → k.Empty d pg) :
    wp (allocuvm im d oldsz newsz) k
      (fun r k' => (kernBase ≤ newsz ∧ r = 0 ∧ k' = k) ∨
        (newsz < kernBase ∧ newsz < oldsz ∧ r = oldsz ∧ k' = k) ∨
        (newsz < kernBase ∧ oldsz ≤ newsz ∧ r = newsz ∧ Wf im k' H ∧ A n k' ∧
          Quiet (pageRange d (pageCount oldsz) (pageCount newsz)) k k' H ∧
          ∀ pg, pageCount oldsz ≤ pg → pg < pageCount newsz →
            k'.page d pg = some zeroPage ∧ (d ∈ H.dirs → k'.In d pg))) E := by
  rw [allocuvm]
  by_cases hbig : kernBase ≤ newsz
  · rw [if_pos hbig, wp_pure]
    exact .inl ⟨hbig, rfl, rfl⟩
  by_cases hlt : newsz < oldsz
  · rw [if_neg hbig, if_pos hlt, wp_pure]
    exact .inr (.inl ⟨by omega, hlt, rfl, rfl⟩)
  have hlim (a : Nat) (ha : a ∈ pagesBetween oldsz newsz) : a < kernBase ∧ a % pgSize = 0 := by
    obtain ⟨haln, _, hhi⟩ := (mem_pagesBetween hold).mp ha
    have := lt_pageCount.mp hhi
    rw [Nat.div_mul_cancel (Nat.dvd_of_mod_eq_zero haln)] at this
    exact ⟨by omega, haln⟩
  rw [if_neg hbig, if_neg hlt, wp_bind]
  rw [Kernel.requests, ← Nat.add_assoc] at hA
  refine wp_mono (allocLoop_spec (n := n) hs _ h hd hA
    (fun a ha => hbeyond _ ((mem_pagesBetween hold).mp ha).2.1) hlim (pagesBetween_nodup hold) fun a ha => hempty _ ((mem_pagesBetween hold).mp ha).2.1 (userPages_of_va (hlim a ha).1).2)
    (fun r k₁ hpost => ?_) (fun _ _ he => he)
  obtain ⟨hr, h₁, hA₁, hq₁, hpages⟩ := hpost
  subst hr
  have hcur := hq₁.calm.cur.trans hp
  rw [if_pos rfl, wp_bind, wp_get]
  simp only [hcur, wp_bind, wp_modify, wp_pure]
  have hrss := (OnlyRss.refl k₁).calcRss p
    ((k₁.proc p).rss + (pageCount newsz - pageCount oldsz))
  have hquiet := hrss.quiet H
  refine .inr (.inr ⟨by omega, by omega, trivial, hrss.wf h₁,
    hs.keep hA₁ rfl (hrss.figures h₁) rfl,
    (hq₁.forget ?_).trans hquiet.weaken,
    fun pg hlo hhi => ?_⟩)
  · rintro d' pg _ ⟨rfl, a, ha, rfl⟩
    exact ⟨rfl, ((mem_pagesBetween hold).mp ha).2⟩
  · have hdiv : pg * pgSize / pgSize = pg := Nat.mul_div_cancel _ (by decide)
    have hmem : pg * pgSize ∈ pagesBetween oldsz newsz := by
      rw [mem_pagesBetween hold, hdiv]
      exact ⟨Nat.mul_mod_left _ _, hlo, hhi⟩
    obtain ⟨hpage, hin⟩ := hpages _ hmem
    rw [hdiv] at hpage hin
    have hpg : pg < userPages := hdiv ▸ (userPages_of_va (hlim _ hmem).1).2
    have hd₁ := hq₁.calm.live.mpr hd
    exact ⟨(hquiet.page d pg hd₁ hpg id).trans hpage, fun hdirs =>
      hquiet.in_built hdirs (lt_tablePages hpg) id (hin hdirs)⟩

end Xv6.Swap
