import AdvancedXv6.Swap.AllocSpec
import AdvancedXv6.Swap.Trail

/-! `copyuvm`, as long as it meets pages in memory only: the copies are pages of their own. -/

namespace Xv6.Swap
open Function Effect Ownership

variable {im : Image} {k k₀ k₁ k' : Kernel} {H : Held} {c d f n p va pg sz : Nat} {e w : Word}
  {A : Nat → Kernel → Prop} {E : Panic → Kernel → Prop} {q : PtePtr} {tr evs : List Event}

/-- `copyuvm` met a page in the swap area. -/
def Shared (tr : List Event) : Prop := ∃ d va, .share d va ∈ tr

/-- Among the events `tr`, the page was not evicted before it was copied. -/
def Timely (tr : List Event) (d va : Nat) : Prop :=
  ∀ l₁ l₂, tr = l₁ ++ .copy d va :: l₂ → .evict d va ∉ l₂

theorem Timely.of_append {l : List Event} {d va : Nat} (h : Timely (tr ++ l) d va) : Timely tr d va := by
  rintro l₁ l₂ rfl hev
  exact h l₁ (l₂ ++ l) (by rw [List.append_assoc, List.cons_append]) (List.mem_append_left _ hev)

theorem Shared.longer (h : Shared k.trail) {P : Event → Prop} (hk : Longer P k k') : Shared k'.trail := by
  obtain ⟨d, va, hm⟩ := h
  exact ⟨d, va, hk.trail.subset hm⟩

/-- Once a swapped-out page was met, it stays on record. -/
theorem Logs.shared {α : Type} {P : Event → Prop} {m : Kern α} (hm : Logs P m) (h : Shared k.trail)
    {Q : α → Kernel → Prop} {E : Panic → Kernel → Prop} :
    wp m k (fun a k' => Shared k'.trail ∨ Q a k') (fun e k' => Shared k'.trail ∨ E e k') :=
  wp_mono (hm k) (fun _ _ hk => .inl (h.longer hk)) fun _ _ hk => .inl (h.longer hk)

theorem permOf_pteFlags (e : Word) : permOf (pteFlags e) = permOf e := by
  rw [permOf, pteFlags, BitVec.and_assoc]
  rfl

theorem Wf.log (h : Wf im k H) (evs : List Event) : Wf im (k.log evs) H :=
  ⟨{ h.acc with }, { h.sane with }⟩

theorem quiet_log (hno : .reload ∉ evs) : Quiet noPage k (k.log evs) H := by
  refine Still.quiet ?_ (.inl ⟨rfl, evs, rfl, hno⟩)
  exact ⟨.of_eq rfl rfl rfl rfl rfl rfl rfl rfl, fun _ _ _ _ => rfl, fun _ _ _ _ => ⟨rfl, rfl⟩⟩

/-- What a page in memory holds. -/
theorem page_of_present (he : k.entry d pg = some e) (hp : Present e) :
    k.page d pg = some ⟨k.contents (.frame (frameOf e)), permOf e⟩ := by
  rw [Kernel.page, he, Option.bind_some, names_present hp]
  rfl

/-- A page that is still in memory is still in its frame. -/
theorem Quiet.frame (hq : Quiet noPage k k' H) (hd : k.Live H d) (hpg : pg < userPages)
    (he : k.entry d pg = some e) (hin : k'.In d pg) :
    k.page d pg = some ⟨k'.contents (.frame (frameOf e)), permOf e⟩ := by
  obtain ⟨e', he', hp'⟩ := hin
  have hg := hq.entry d pg hd (lt_tablePages hpg) id
  rw [he, he'] at hg
  cases hg with
  | some hev => rw [← hq.page d pg hd hpg id, page_of_present he' hp', hev.frame hp', hev.perm]

/-- One page is copied. -/
theorem copyPage_spec (hs : Supply im A E) (h : Wf im k (H.build c)) (hd : k.Live H d)
    (hA : A (n + 2) k) (hva : va < kernBase) (haln : va % pgSize = 0)
    (hq : k.walk d va = some q) (hp : Present (k.load q)) (hempty : k.Empty c (va / pgSize))
    {Q : Bool → Kernel → Prop} {E' : Panic → Kernel → Prop} {m : Kern Bool}
    (hE : ∀ e k', E e k' → E' e k')
    (hm : ∀ k', Wf im k' (H.build c) → A n k' →
      Quiet (onePage c (va / pgSize)) k k' (H.build c) →
      (k'.page c (va / pgSize)).isSome →
      (∃ evs, k'.trail = evs ++ k.trail ∧ ∃ l₁ l₂, evs = l₁ ++ .copy d va :: l₂ ∧
        (.evict d va ∉ l₂ → k'.page c (va / pgSize) = k.page d (va / pgSize))) →
      wp m k' Q E') :
    wp (do
      match ← kalloc im with
      | none => pure false
      | some mem => do
        modify fun k₁ => (k₁.setPage mem (k₁.mem (frameOf (k.load q)))).record (.copy d va)
        let r ← mappages im c va pgSize mem (pteFlags (k.load q))
        if r < 0 then do
          kfree im mem
          pure false
        else m) k Q E' := by
  obtain ⟨h32, hpg⟩ := userPages_of_va hva
  have hmul : va / pgSize * pgSize = va := Nat.div_mul_cancel (Nat.dvd_of_mod_eq_zero haln)
  have he := Kernel.entry_of_walk h32 hq
  have hd' : k.Live (H.build c) d := live_build.mpr (.inr hd)
  rw [wp_bind]
  refine wp_mono (hs.alloc (n := n + 1) h hA) (fun r k₁ hpost => ?_) hE
  obtain ⟨f, hr, h₁, hq₁, hA₁⟩ := hpost
  subst hr
  obtain ⟨evs, hevs, hin⟩ := hq₁.trail
  have h₂ := (h₁.fill (k₁.mem (frameOf (k.load q)))).log [.copy d va]
  have hquiet₂ := ((still_fill h₁.acc (k₁.mem (frameOf (k.load q)))).quiet_same rfl rfl).trans
    (quiet_log (by simp : Event.reload ∉ [Event.copy d va]))
  have hq₂ := hq₁.trans hquiet₂
  have hA₂ : A (n + 1) ((k₁.setPage f (k₁.mem (frameOf (k.load q)))).log [.copy d va]) :=
    hs.keep hA₁ rfl rfl rfl fun d' va' hm' =>
      (List.mem_cons.mp hm').resolve_left (by simp)
  have hA₃ := hs.less (Nat.add_le_add_left
    (tableless_le_one :
      Kernel.tableless ((k₁.setPage f (k₁.mem (frameOf (k.load q)))).log [.copy d va]) c va ≤ 1) n) hA₂
  have hc : k.Live (H.build c) c := ⟨.held, List.mem_cons_self⟩
  rw [wp_bind, wp_modify, wp_bind, mappages_page hva haln, Kernel.record]
  refine wp_mono (mapOne_spec (n := n) hs.source h₂ (hq₂.calm.live.mpr hc) hA₃ hva (pteFlags_lt _)
    (h₂.beyond_built (d := c) List.mem_cons_self) (hq₂.empty hc (lt_tablePages hpg) id hempty)) (fun r k₃ hpost => ?_) hE
  obtain ⟨hr, h₃, hq₃, hA₃, he₃, hm₃⟩ := hpost
  subst hr
  rw [if_neg (by decide)]
  have hq := hq₂.weaken.trans hq₃
  obtain ⟨evs', hevs', _⟩ := hq₃.trail
  have hpage := page_of_map (pteFlags_lt _) h₁.held_valid he₃
  refine hm k₃ h₃ hA₃ hq (hpage ▸ rfl) ⟨evs' ++ .copy d va :: evs, ?_, evs', evs, rfl, fun hno => ?_⟩
  · rw [hevs', List.append_assoc, Kernel.log]
    show evs' ++ ([.copy d va] ++ k₁.trail) = _
    rw [hevs]
    rfl
  · have hin₁ : k₁.In d (va / pgSize) := by
      rcases hin d _ hd' hpg id ⟨_, he, hp⟩ with h | h
      · exact h
      · rw [hmul] at h
        exact absurd h hno
    rw [hpage, hm₃, permOf_pteFlags, hq₁.frame hd' hpg he hin₁]
    show some (UserPage.mk (fun i => (k₁.setPage f (k₁.mem (frameOf (k.load q)))).mem f i) _) = _
    rw [setPage_mem_self]
    rfl

theorem copyLoop_spec (hs : Supply im A E) (vas : List Nat) (h : Wf im k (H.build c))
    (hd : k.Live H d) (hA : A (n + 2 * vas.length) k)
    (hvas : ∀ va ∈ vas, va < kernBase ∧ va % pgSize = 0) (hnd : (vas.map (· / pgSize)).Nodup)
    (hempty : ∀ va ∈ vas, k.Empty c (va / pgSize)) :
    wp (copyLoop im d c vas) k
      (fun r k' => Shared k'.trail ∨ (r = true ∧ Wf im k' (H.build c) ∧ A n k' ∧
        Quiet (pagesOf c vas) k k' (H.build c) ∧ ∃ evs, k'.trail = evs ++ k.trail ∧
          ∀ va ∈ vas, (k'.page c (va / pgSize)).isSome ∧
            (Timely evs d va → k'.page c (va / pgSize) = k.page d (va / pgSize))))
      (fun e k' => Shared k'.trail ∨ E e k' ∨ (e = .copyuvmPte ∨ e = .copyuvmPage) ∧
        ∃ va ∈ vas, k.page d (va / pgSize) = none) := by
  induction vas generalizing k with
  | nil =>
    rw [copyLoop, wp_pure]
    exact .inr ⟨rfl, h, hA, (Quiet.refl k _).weaken, [], rfl, by simp⟩
  | cons va vas ih =>
    obtain ⟨hva, haln⟩ := hvas va List.mem_cons_self
    obtain ⟨h32, hpg⟩ := userPages_of_va hva
    obtain ⟨hnotin, hnd⟩ := List.nodup_cons.mp hnd
    rw [copyLoop, wp_bind, wp_get]
    cases hq : k.walk d va with
    | none =>
      refine (wp_throw _).mpr (.inr (.inr ⟨.inl rfl, va, List.mem_cons_self, ?_⟩))
      rw [Kernel.page, Kernel.entry_eq_walk h32, hq]
      rfl
    | some q =>
      dsimp only
      by_cases hp : Present (k.load q)
      · rw [if_neg (fun h => h.1 hp), if_pos hp]
        refine copyPage_spec (n := n + 2 * vas.length) hs h hd hA hva haln hq hp
          (hempty va List.mem_cons_self) (fun e k' he => .inr (.inl he)) fun k₁ h₁ hA₁ hq₁ hsome hcopy => ?_
        have hlive := hq₁.calm.live (d := d) (H := H)
        have hsame (b : Nat) (hb : b ∈ vas) : k₁.page d (b / pgSize) = k.page d (b / pgSize) := by
          refine hq₁.page d _ (live_build.mpr (.inr hd)) (userPages_of_va (hvas b (List.mem_cons_of_mem va hb)).1).2 ?_
          rintro ⟨rfl, _⟩
          exact h.acc.not_live hd
        obtain ⟨evs, hevs, l₁, l₂, rfl, hpage⟩ := hcopy
        refine wp_mono (ih h₁ (hlive.mpr hd) hA₁ (fun b hb => hvas b (List.mem_cons_of_mem va hb)) hnd
          fun b hb => ?_) (fun r k' hk' => hk'.imp_right fun hpost =>
          ⟨hpost.1, hpost.2.1, hpost.2.2.1, ?_, ?_⟩) (fun _ _ he => he.imp_right fun he => he.imp_right
            fun hpost => ⟨hpost.1, ?_⟩)
        · have hb' := userPages_of_va (hvas b (List.mem_cons_of_mem va hb)).1
          refine hq₁.empty ⟨.held, List.mem_cons_self⟩ (lt_tablePages hb'.2) (fun hone => hnotin ?_)
            (hempty b (List.mem_cons_of_mem va hb))
          exact List.mem_map.mpr ⟨b, hb, hone.2⟩
        rotate_left 2
        · obtain ⟨-, b, hb, hnone⟩ := hpost
          exact ⟨b, List.mem_cons_of_mem va hb, hsame b hb ▸ hnone⟩
        · obtain ⟨-, -, -, hq', -⟩ := hpost
          refine (hq₁.forget ?_).trans (hq'.forget ?_)
          · rintro d' pg _ ⟨rfl, rfl⟩
            exact ⟨rfl, va, List.mem_cons_self, rfl⟩
          · rintro d' pg _ ⟨rfl, b, hb, rfl⟩
            exact ⟨rfl, b, List.mem_cons_of_mem va hb, rfl⟩
        · obtain ⟨-, -, -, hq', evs', hevs', hpages⟩ := hpost
          refine ⟨evs' ++ (l₁ ++ .copy d va :: l₂), by rw [hevs', hevs, List.append_assoc evs'],
            fun b hb => ?_⟩
          rcases List.mem_cons.mp hb with rfl | hb
          · rw [hq'.page c _ (hq₁.calm.live.mpr ⟨.held, List.mem_cons_self⟩) hpg fun hx =>
              hnotin (List.mem_map.mpr hx.2)]
            exact ⟨hsome, fun htime => hpage (htime (evs' ++ l₁) l₂ (by rw [List.append_assoc]))⟩
          · obtain ⟨hb', hcopied⟩ := hpages b hb
            exact ⟨hb', fun htime => (hcopied htime.of_append).trans (hsame b hb)⟩
      · by_cases hsw : Swapped (k.load q)
        · rw [if_neg (fun h => h.2 hsw), if_neg hp, wp_bind, wp_modify]
          refine Logs.shared (.bind (mappages_logs im _ _ _ _ _).noFetch fun _ => .ite (.pure _)
            (copyLoop_logs im d c vas)) ⟨d, va, List.mem_cons_self⟩
        · rw [if_pos ⟨hp, hsw⟩, wp_throw]
          refine .inr (.inr ⟨.inr rfl, va, List.mem_cons_self, ?_⟩)
          rw [Kernel.page, Kernel.entry_of_walk h32 hq, Option.bind_some, names_none hp hsw]
          rfl

/-- A copy of the pages below `sz`, in a directory of its own. -/
theorem copyuvm_spec (hs : Supply im A E) (h : Wf im k H) (hd : k.Live H d) (hsz : sz ≤ kernBase)
    (hA : A (n + 2 * pageCount sz + 10) k) :
    wp (copyuvm im d sz) k
      (fun r k' => Shared k'.trail ∨ ∃ c, r = some c ∧ Wf im k' (H.build c) ∧ A n k' ∧
        Quiet noPage k k' H ∧ (∀ pg, pageCount sz ≤ pg → pg < userPages → k'.page c pg = none) ∧
        ∃ evs, k'.trail = evs ++ k.trail ∧
          ∀ pg, pg < pageCount sz → (k'.page c pg).isSome ∧
            (Timely evs d (pg * pgSize) → k'.page c pg = k.page d pg))
      (fun e k' => Shared k'.trail ∨ E e k' ∨ (e = .copyuvmPte ∨ e = .copyuvmPage) ∧
        ∃ pg, pg < pageCount sz ∧ k.page d pg = none) := by
  rw [copyuvm, wp_bind]
  refine wp_mono (setupkvm_spec hs h hA) (fun r k₁ hpost => ?_)
    (fun _ _ he => .inr (.inl he))
  obtain ⟨c, hr, h₁, hA₁, hq₁, hno⟩ := hpost
  subst hr
  have hd₁ := hq₁.calm.live.mpr hd
  have hc : k₁.Live (H.build c) c := ⟨.held, List.mem_cons_self⟩
  have hempty (pg : Nat) (hpg : pg < userPages) : k₁.entry c pg = none := by
    rw [Kernel.entry, if_neg (hno _ ?_)]
    rw [userPages] at hpg ⊢
    omega
  have hvas (va : Nat) (hva : va ∈ pagesBelow sz) : va < kernBase ∧ va % pgSize = 0 := by
    obtain ⟨hlt, hmul, _⟩ := mem_pagesBelow hsz hva
    exact ⟨hlt, by rw [hmul]; exact Nat.mul_mod_left _ _⟩
  have hdiv (pg : Nat) : pg * pgSize / pgSize = pg := Nat.mul_div_cancel _ (by decide)
  have hlen : (pagesBelow sz).length = pageCount sz := by
    rw [pagesBelow, List.length_map, List.length_range]
  have hnodup : ((pagesBelow sz).map (· / pgSize)).Nodup := by
    rw [pagesBelow, List.map_map]
    exact List.nodup_range.map fun i j hij => by simpa only [comp_apply, hdiv] using hij
  rw [wp_bind]
  refine wp_mono (copyLoop_spec (n := n) hs (pagesBelow sz) h₁ hd₁ (by rw [hlen]; exact hA₁) hvas
    hnodup fun va hva e he => ?_) (fun r k' hk' => ?_) (fun _ _ he => he.imp_right fun he => he.imp_right
      fun hpost => ⟨hpost.1, ?_⟩)
  · rw [hempty _ (userPages_of_va (hvas va hva).1).2] at he
    cases he
  rotate_left
  · obtain ⟨va, hva, hnone⟩ := hpost.2
    have hup := (userPages_of_va (hvas va hva).1).2
    exact ⟨_, (mem_pagesBelow hsz hva).2.2, (hq₁.page d _ hd hup id) ▸ hnone⟩
  rcases hk' with hsh | ⟨hr, h', hA', hq', evs', hevs', hpages⟩
  · have hlogs : Logs Plain (if r = true then pure (some c) else do
        freevm im c
        pure none : Kern (Option Nat)) := .ite (.pure _) (.bind (freevm_logs im c) fun _ => .pure _)
    exact hlogs.shared hsh
  subst hr
  rw [if_pos rfl, wp_pure]
  obtain ⟨evs, hevs, _⟩ := hq₁.trail
  refine .inr ⟨c, rfl, h', hA', hq₁.trans (hq'.unbuild.forget ?_), fun pg hlo hpg => ?_,
    evs' ++ evs, by rw [hevs', hevs, List.append_assoc], fun pg hpg => ?_⟩
  · rintro d' pg hd' ⟨rfl, _⟩
    exact absurd hd' h₁.acc.not_live
  · rw [hq'.page c pg hc hpg, Kernel.page, hempty pg hpg, Option.bind_none]
    rintro ⟨_, va, hva, rfl⟩
    have := (mem_pagesBelow hsz hva).2.2
    omega
  · have hmem : pg * pgSize ∈ pagesBelow sz := List.mem_map.mpr ⟨pg, List.mem_range.mpr hpg, rfl⟩
    obtain ⟨hsome, hcopy⟩ := hpages _ hmem
    rw [hdiv] at hsome hcopy
    exact ⟨hsome, fun htime => (hcopy htime.of_append).trans
      (hq₁.page d pg hd (Nat.lt_of_lt_of_le hpg (pageCount_le hsz)) id)⟩

end Xv6.Swap
