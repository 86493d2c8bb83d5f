import AdvancedXv6.Swap.Quiet

/-! The invariant of the kernel state, and the stores that keep it. -/

namespace Xv6.Swap
open Function Ownership

/-- The flags saved with a slot are the ones that the entry had. -/
def SlotPerm (perm e : Word) : Prop := perm.toNat < 4096 ∧ permOf perm = permOf e

/-- The invariant apart from who owns what. -/
structure Sane (k : Kernel) (H : Held) : Prop where
  unlocked : k.kmemLocked = false
  tH_nonneg : 0 ≤ k.tH
  nPg_ge : 4 ≤ k.nPg
  nPg_le : k.nPg ≤ limit
  perm : ∀ d pg e n, k.Live H d → pg < userPages → k.entry d pg = some e →
    names e = some (.slot n) → SlotPerm (k.swapSlots n).pagePerm e
  upper : ∀ d pg e, k.Live H d → userPages ≤ pg → pg < tablePages → k.entry d pg = some e →
    ¬Swapped e ∧ ¬User e
  size : ∀ i, i < nProc → HasVm (k.proc i).state → (k.proc i).sz ≤ kernBase
  gone : ∀ i, H.gone = some i → (k.proc i).state = .zombie
  run : ∀ p, k.cur = some p → p < nProc ∧ (k.proc p).state = .running ∧ k.cr3 = (k.proc p).pgdir
  bufs : ∀ b ∈ k.bufs, b < fsSize

structure Wf (im : Image) (k : Kernel) (H : Held) : Prop where
  acc : Accounted im k H
  sane : Sane k H

variable {im : Image} {k k' : Kernel} {H H' : Held} {X : Nat → Nat → Prop}
  {d va pg f n i p t : Nat} {a : Res} {e w : Word} {q : PtePtr} {r : Ref} {evs : List Event}

theorem Sane.dir_proc (h : Sane k H) (hi : i < nProc) (hs : Evictable (k.proc i).state) :
    k.Dir H (.proc i) (k.proc i).pgdir := by
  refine ⟨hi, .inl hs, fun hg => ?_, rfl⟩
  rw [h.gone i hg] at hs
  rcases hs with hs | hs | hs <;> cases hs

theorem Sane.dir_cur (h : Sane k H) (hp : k.cur = some p) : k.Dir H (.proc p) (k.proc p).pgdir :=
  h.dir_proc (h.run p hp).1 (by rw [(h.run p hp).2.1]; exact .inr (.inl rfl))

theorem Sane.live_cr3 (h : Sane k H) (hp : k.cur = some p) : k.Live H k.cr3 := by
  rw [(h.run p hp).2.2]
  exact ⟨_, h.dir_cur hp⟩

/-- Only the directories matter. -/
theorem Sane.sub (h : Sane k H) (hdirs : H'.dirs ⊆ H.dirs) (hgone : H'.gone = H.gone) :
    Sane k H' := by
  have hlive {d : Nat} (hd : k.Live H' d) : k.Live H d := by
    obtain ⟨x, hx⟩ := hd
    refine ⟨x, ?_⟩
    cases x with
    | proc i => rwa [Kernel.Dir, ← hgone]
    | kernel => exact hx
    | held => exact hdirs hx
  exact { h with
    perm := fun d pg e n hd => h.perm d pg e n (hlive hd)
    upper := fun d pg e hd => h.upper d pg e (hlive hd)
    gone := fun i hi => h.gone i (hgone ▸ hi) }

theorem Sane.held {G : Held} (h : Sane k H) (hdirs : G.dirs = H.dirs) (hgone : G.gone = H.gone) :
    Sane k G := h.sub (fun _ hd => hdirs ▸ hd) hgone

theorem Sane.still (h : Sane k H) (hs : Still k k' H) (hl : k'.kmemLocked = k.kmemLocked)
    (ht : k'.tH = k.tH) (hn : k'.nPg = k.nPg)
    (hb : ∀ b ∈ k'.bufs, b < fsSize) : Sane k' H where
  unlocked := hl.trans h.unlocked
  tH_nonneg := ht ▸ h.tH_nonneg
  nPg_ge := hn ▸ h.nPg_ge
  nPg_le := hn ▸ h.nPg_le
  perm d pg e n hd hpg he ha := by
    have hd := hs.calm.live.mp hd
    rw [hs.entry hd (lt_tablePages hpg)] at he
    rw [(hs.slots (.user d pg) n (by simp) ⟨hd, hpg, e, he, ha⟩).2]
    exact h.perm d pg e n hd hpg he ha
  upper d pg e hd hlo hpg he := by
    have hd := hs.calm.live.mp hd
    rw [hs.entry hd hpg] at he
    exact h.upper d pg e hd hlo hpg he
  size i hi := by
    rw [hs.calm.state, hs.calm.sz]
    exact h.size i hi
  gone i hi := by
    rw [hs.calm.state]
    exact h.gone i hi
  run p hp := by
    rw [hs.calm.cur] at hp
    rw [hs.calm.state, hs.calm.cr3, hs.calm.pgdir]
    exact h.run p hp
  bufs := hb

theorem Sane.setPte (h : Sane k H) (hk : Accounted im k H) (hd : k.Live H d)
    (hq : k.walk d va = some q) (hva : va < 2 ^ 32)
    (hw : ∀ n, names w = some (.slot n) → SlotPerm (k.swapSlots n).pagePerm w)
    (hup : va / pgSize < userPages ∨ ¬Swapped w ∧ ¬User w) : Sane (k.setPte d va q w) H :=
  { h with
    perm := by
      intro d' pg e n hd' hpg he ha
      have hd' := live_setPte.mp hd'
      rw [entry_setPte hk hd hq hva hd' (userPages_div hpg)] at he
      by_cases hx : d' = d ∧ pg = va / pgSize
      · rw [if_pos hx] at he
        cases he
        exact hw n ha
      · rw [if_neg hx] at he
        exact h.perm d' pg e n hd' hpg he ha
    upper := by
      intro d' pg e hd' hlo hpg he
      have hd' := live_setPte.mp hd'
      rw [entry_setPte hk hd hq hva hd' (tablePages_div.mp hpg)] at he
      by_cases hx : d' = d ∧ pg = va / pgSize
      · rw [if_pos hx] at he
        cases he
        exact hup.resolve_left (Nat.not_lt.mpr (hx.2 ▸ hlo))
      · rw [if_neg hx] at he
        exact h.upper d' pg e hd' hlo hpg he
    gone := h.gone
    run := h.run
    bufs := h.bufs }

/-! ### Stores to entries -/

/-- The new entry stands for the same page; if it translates no more, an eviction is recorded. -/
structure Keeps (k : Kernel) (H : Held) (d va : Nat) (e w : Word) (evs : List Event) : Prop where
  shared : d ∉ H.dirs
  evolves : Evolves e w
  contents : (names w).map k.contents = (names e).map k.contents
  out : Present e → Present w ∨ .evict d (va / pgSize * pgSize) ∈ evs

theorem tlb_store_of_ne {pg : Nat} (hne : ¬(k.cr3 = d ∧ pg = va / pgSize)) :
    (k.setPte d va q w).tlb pg = k.tlb pg := by
  simp only [Kernel.setPte]
  split
  · rename_i hc
    exact update_of_ne (fun e => hne ⟨hc.1.symm, e⟩) _ _
  · rfl

section Store
variable (hk : Accounted im k H) (hd : k.Live H d) (hq : k.walk d va = some q) (hva : va < 2 ^ 32)
include hk hd hq

/-- A store to a page table leaves every other page that is referred to. -/
theorem mem_store (hf : k.Refers H r (.frame f)) (hr : ∀ i, r ≠ .tab d i) :
    (k.setPte d va q w).mem f = k.mem f := by
  refine setPte_mem_of_ne ?_
  rintro rfl
  exact hr _ (hk.exact.unique hf (Accounted.walk_ref hd hq))

theorem contents_store {d' pg : Nat} (hu : k.Refers H (.user d' pg) a) :
    (k.setPte d va q w).contents a = k.contents a := by
  cases a with
  | slot n => rfl
  | frame f =>
    funext i
    rw [Kernel.contents, Kernel.contents, mem_store hk hd hq hu (by simp)]

include hva

theorem page_store_of_ne {d' pg : Nat} (hd' : k.Live H d') (hpg : pg < userPages)
    (hne : ¬(d' = d ∧ pg = va / pgSize)) : (k.setPte d va q w).page d' pg = k.page d' pg := by
  rw [Kernel.page, Kernel.page, entry_setPte hk hd hq hva hd' (userPages_div hpg), if_neg hne]
  cases he : k.entry d' pg with
  | none => rfl
  | some e =>
    cases ha : names e with
    | none => simp [ha]
    | some a =>
      have := contents_store hk hd hq (w := w) (show k.Refers H (.user d' pg) a from
        ⟨hd', hpg, e, he, ha⟩)
      simp [ha, this]

theorem page_store_self (hpg : va / pgSize < userPages) (hev : Evolves (k.load q) w)
    (hc : (names w).map k.contents = (names (k.load q)).map k.contents) :
    (k.setPte d va q w).page d (va / pgSize) = k.page d (va / pgSize) := by
  have hload := Kernel.entry_of_walk hva hq
  rw [Kernel.page, Kernel.page, entry_setPte hk hd hq hva hd (userPages_div hpg),
    if_pos ⟨rfl, rfl⟩, hload, Option.bind_some, Option.bind_some, hev.perm]
  cases hw : names w with
  | none =>
    rw [hw, Option.map_none] at hc
    rw [Option.map_eq_none_iff.mp hc.symm]
    rfl
  | some b =>
    rw [hw, Option.map_some] at hc
    obtain ⟨c, hn, hbc⟩ := Option.map_eq_some_iff.mp hc.symm
    have hb : (k.setPte d va q w).contents b = k.contents b := by
      cases b with
      | slot n => rfl
      | frame f =>
        obtain ⟨hp, rfl⟩ := names_frame hw
        refine contents_store hk hd hq ⟨hd, hpg, _, hload, ?_⟩
        rw [names_present (hev.present hp), hev.frame hp]
    rw [hn, Option.map_some, Option.map_some, hb, hbc]

theorem loose_store (hcr3 : k.Live H k.cr3) {pg : Nat} (hpg : pg < tablePages)
    (hno : .reload ∉ evs)
    (hkeep : k.cr3 = d → pg = va / pgSize → ¬Present (k.load q) ∨ Evolves (k.load q) w ∧
      (Present (k.load q) → Present w ∨ .evict d (va / pgSize * pgSize) ∈ evs))
    (hl : ((k.setPte d va q w).log evs).Loose pg) : k.Loose pg := by
  obtain ⟨⟨e₀, he₀, hst⟩, hpend⟩ := hl
  rw [pending_append (rfl : ((k.setPte d va q w).log evs).trail = evs ++ k.trail) hno rfl, not_or] at hpend
  refine ⟨⟨e₀, ?_⟩, hpend.2⟩
  have hent : ((k.setPte d va q w).log evs).entry k.cr3 pg =
      if k.cr3 = d ∧ pg = va / pgSize then some w else k.entry k.cr3 pg :=
    entry_setPte hk hd hq hva hcr3 (tablePages_div.mp hpg)
  rw [show ((k.setPte d va q w).log evs).cr3 = k.cr3 from rfl, hent] at hst
  by_cases h : k.cr3 = d ∧ pg = va / pgSize
  · have hkept := hkeep h.1 h.2
    obtain ⟨rfl, rfl⟩ := h
    rw [if_pos ⟨rfl, rfl⟩] at hst
    rw [Kernel.entry_of_walk hva hq]
    by_cases hp : Present w
    · have hmem : e₀ ∈ w :: k.tlb (va / pgSize) := by
        simpa only [Kernel.log, Kernel.setPte, hp, and_self, if_true, update_self] using he₀
      refine ⟨(List.mem_cons.mp hmem).resolve_left ?_, ?_⟩
      · rintro rfl
        exact hst ⟨_, rfl, hp, rfl, rfl⟩
      · rintro ⟨e', he', hp', hf, hm⟩
        cases he'
        obtain ⟨hev, -⟩ := hkept.resolve_left (not_not_intro hp')
        exact hst ⟨w, rfl, hp, (hev.frame hp).trans hf, hev.perm.trans hm⟩
    · have hmem : e₀ ∈ k.tlb (va / pgSize) := by
        simpa only [Kernel.log, Kernel.setPte, hp, and_false, if_false] using he₀
      refine ⟨hmem, ?_⟩
      rintro ⟨e', he', hp', _⟩
      cases he'
      obtain ⟨-, hout⟩ := hkept.resolve_left (not_not_intro hp')
      exact hpend.1 ((hout hp').resolve_left hp)
  · rw [if_neg h] at hst
    have htlb := tlb_store_of_ne (q := q) (w := w) h
    exact ⟨htlb ▸ he₀, hst⟩

/-- A store to an entry that is left out, or that keeps its page. -/
theorem Quiet.store (hno : .reload ∉ evs)
    (hkeep : X d (va / pgSize) ∨ Keeps k H d va (k.load q) w evs) :
    Quiet X k ((k.setPte d va q w).log evs) H := by
  have hload := Kernel.entry_of_walk hva hq
  have hentry {d' pg : Nat} (hd' : k.Live H d') (hpg : pg < tablePages) :
      ((k.setPte d va q w).log evs).entry d' pg =
        if d' = d ∧ pg = va / pgSize then some w else k.entry d' pg :=
    entry_setPte hk hd hq hva hd' (tablePages_div.mp hpg)
  refine {
    calm := ⟨fun i => ⟨(k.proc i).rss, rfl⟩, rfl, rfl, rfl, rfl, rfl, rfl, rfl⟩
    frames := fun f hf => mem_store hk hd hq (r := .held) hf (by simp)
    slots := fun n hn => ⟨rfl, rfl⟩
    pde := fun d' i hd' hi _ => congrFun (setPte_mem_live hk hd hq hd') i
    entry := fun d' pg hd' hpg hx => ?_
    built := fun d' pg hd' hpg hx => .inl ?_
    page := fun d' pg hd' hpg hx => ?_
    loose := fun hcr3 pg hpg hx => loose_store hk hd hq hva hcr3 hpg hno fun h₁ h₂ => ?_
    trail := ⟨evs, rfl, fun d' pg hd' hpg hx hin => ?_⟩ }
  · rw [hentry hd' hpg]
    by_cases h : d' = d ∧ pg = va / pgSize
    · obtain ⟨rfl, rfl⟩ := h
      rw [if_pos ⟨rfl, rfl⟩, hload]
      exact .some (hkeep.resolve_left hx).evolves
    · rw [if_neg h]
      exact .refl _
  · refine (hentry ⟨.held, hd'⟩ hpg).trans (if_neg ?_)
    rintro ⟨rfl, rfl⟩
    exact (hkeep.resolve_left hx).shared hd'
  · by_cases h : d' = d ∧ pg = va / pgSize
    · obtain ⟨rfl, rfl⟩ := h
      have hkeep := hkeep.resolve_left hx
      exact page_store_self hk hd hq hva hpg hkeep.evolves hkeep.contents
    · exact page_store_of_ne hk hd hq hva hd' hpg h
  · subst h₁ h₂
    have hkeep := hkeep.resolve_left hx
    exact .inr ⟨hkeep.evolves, hkeep.out⟩
  · obtain ⟨e, he, hp⟩ := hin
    by_cases h : d' = d ∧ pg = va / pgSize
    · obtain ⟨rfl, rfl⟩ := h
      rw [hload] at he
      cases he
      rcases (hkeep.resolve_left hx).out hp with hp' | hev
      · exact .inl ⟨w, (hentry hd' (lt_tablePages hpg)).trans (if_pos ⟨rfl, rfl⟩), hp'⟩
      · exact .inr hev
    · exact .inl ⟨e, ((hentry hd' (lt_tablePages hpg)).trans (if_neg h)).trans he, hp⟩

end Store

/-! ### Stores that change no translation -/

theorem names_agree (hp : Present e) (ha : Kernel.Agree e w) : names w = names e := by
  rw [names_present hp, names_present ha.1, ha.2.1]

theorem Wf.setAgree (h : Wf im k H) (hd : k.Live H d) (hq : k.walk d va = some q)
    (hva : va < kernBase) (hp : Present (k.load q)) (ha : Kernel.Agree (k.load q) w) :
    Wf im (k.setPte d va q w) H where
  acc := h.acc.setFlags hd hq (userPages_of_va hva).1 fun _ => names_agree hp ha
  sane := h.sane.setPte h.acc hd hq (userPages_of_va hva).1 (fun n hn => by
    rw [names_agree hp ha, names_present hp] at hn
    cases hn) (.inl (userPages_of_va hva).2)

theorem Quiet.setAgree (hk : Accounted im k H) (hd : k.Live H d) (hsh : d ∉ H.dirs)
    (hq : k.walk d va = some q) (hva : va < kernBase) (hp : Present (k.load q))
    (ha : Kernel.Agree (k.load q) w) : Quiet X k (k.setPte d va q w) H :=
  Quiet.store hk hd hq (userPages_of_va hva).1 (List.not_mem_nil : Event.reload ∉ []) (.inr {
    shared := hsh
    evolves := ⟨ha.2.2, fun hn => absurd hp hn, fun _ => ha.2.1, fun _ => .inl ha.1⟩
    contents := by rw [names_agree hp ha]
    out := fun _ => .inl ha.1 })

end Xv6.Swap
