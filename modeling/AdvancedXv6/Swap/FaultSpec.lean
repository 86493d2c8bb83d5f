import AdvancedXv6.Swap.FreeSpec
import AdvancedXv6.Swap.Trail

/-! `swap_in` and the page-fault handler: a page comes back to memory with its old contents and
permissions, and its slot is lost. -/

namespace Xv6.Swap
open Function Effect Ownership

variable {im : Image} {k k₀ k₁ k₂ k₃ k' s : Kernel} {H : Held} {d f i j n p va pg : Nat}
  {e w perm : Word} {A : Nat → Kernel → Prop} {E : Panic → Kernel → Prop} {q : PtePtr}
  {X Y : Nat → Nat → Prop}

/-! ### What a fault may change -/

/-- Up to the pages in `X`, no process and no local variable sees a change. In contrast to
`Quiet`, pages may come back to memory. -/
structure Tame (X : Nat → Nat → Prop) (k k' : Kernel) (H : Held) : Prop where
  calm : Calm k k'
  built : ∀ d pg, d ∈ H.dirs → pg < tablePages → ¬X d pg →
    Appears (k.entry d pg) (k'.entry d pg)
  page : ∀ d pg, k.Live H d → pg < userPages → ¬X d pg → k'.page d pg = k.page d pg
  loose : k.Live H k.cr3 → ∀ pg, pg < tablePages → ¬X k.cr3 pg → k'.Loose pg → k.Loose pg
  trail : ∃ evs, k'.trail = evs ++ k.trail

theorem Quiet.tame (h : Quiet X k k' H) : Tame X k k' H where
  calm := h.calm
  built := h.built
  page := h.page
  loose := h.loose
  trail := h.trail.imp fun _ he => he.1

namespace Tame

theorem refl (k : Kernel) (H : Held) : Tame noPage k k H := (Quiet.refl k H).tame

theorem trans (h : Tame X k₁ k₂ H) (h' : Tame X k₂ k₃ H) : Tame X k₁ k₃ H where
  calm := h.calm.trans h'.calm
  built d pg hd hpg hx := (h.built d pg hd hpg hx).trans (h'.built d pg hd hpg hx)
  page d pg hd hpg hx := (h'.page d pg (h.calm.live.mpr hd) hpg hx).trans (h.page d pg hd hpg hx)
  loose hcr3 pg hpg hx hl := by
    refine h.loose hcr3 pg hpg hx (h'.loose ?_ pg hpg ?_ hl)
    · rw [h.calm.cr3]
      exact h.calm.live.mpr hcr3
    · rw [h.calm.cr3]
      exact hx
  trail := by
    obtain ⟨evs, he⟩ := h.trail
    obtain ⟨evs', he'⟩ := h'.trail
    exact ⟨evs' ++ evs, by rw [he', he, List.append_assoc]⟩

theorem forget (h : Tame X k k' H) (hX : ∀ d pg, k.Live H d → X d pg → Y d pg) :
    Tame Y k k' H where
  calm := h.calm
  built d pg hd hpg hx := h.built d pg hd hpg fun hx' => hx (hX d pg ⟨.held, hd⟩ hx')
  page d pg hd hpg hx := h.page d pg hd hpg fun hx' => hx (hX d pg hd hx')
  loose hcr3 pg hpg hx := h.loose hcr3 pg hpg fun hx' => hx (hX _ pg hcr3 hx')
  trail := h.trail

theorem weaken (h : Tame noPage k k' H) : Tame X k k' H := h.forget fun _ _ _ hx => hx.elim

end Tame

/-! ### Reading a page back -/

theorem OnlyDisk.still (h : OnlyDisk k k') (hdisk : k'.disk = k.disk) : Still k k' H where
  calm := h.calm
  frames _ _ _ _ := by rw [h.mem]
  slots r n _ _ := by
    refine ⟨?_, by rw [h.eq]⟩
    funext i
    rw [Kernel.contents, Kernel.contents, hdisk]

theorem OnlyDisk.quiet (h : OnlyDisk k k') (hdisk : k'.disk = k.disk) : Quiet noPage k k' H := by
  refine (h.still hdisk).quiet ?_
  rcases h.tlb with ⟨ht, htr⟩ | ht
  · exact .inl ⟨ht, [], htr, by simp⟩
  · obtain ⟨r, hr⟩ := h.trail
    refine .inr ⟨fun pg _ => not_stale_of_fresh ?_, _, hr⟩
    rw [ht, h.freshTlb, h.calm.cr3]

theorem OnlyDisk.wf (h : OnlyDisk k k') (hdisk : k'.disk = k.disk) (hk : Wf im k H) :
    Wf im k' H where
  acc := by
    refine (h.still hdisk).sameTables.accounted hk.acc ?_ ?_ fun _ => ?_ <;> rw [h.eq]
  sane := by
    refine hk.sane.still (h.still hdisk) ?_ ?_ ?_ (h.bufs hk.sane.bufs) <;> rw [h.eq]

/-- While a page is being read: the blocks `js` are still to come. -/
structure Reading (im : Image) (k s : Kernel) (H : Held) (f n : Nat) (js : List Nat) : Prop where
  wf : Wf im s (H.hold (.frame f))
  quiet : Quiet noPage k s H
  disk : s.disk = k.disk
  todo : ∀ j ∈ js, j < blocksPerSlot
  done : ∀ i : Fin pageWords, i.val / blockWords ∉ js → s.mem f i = k.contents (.slot n) i

theorem readBlock_spec {js : List Nat} (hn : n < numSlots) (hp : k.cur = some p)
    (h : Reading im k s H f n (j :: js)) :
    wp (readBlock f n j) s (fun _ s' => Reading im k s' H f n js) E := by
  have hb := swapBlock_lt_fsSize hn (h.todo j List.mem_cons_self)
  have honly := onlyDisk_fetched (k := s) hb
  rw [readBlock, wp_bind, wp_bread hb (h.wf.sane.onOwnTable (h.quiet.calm.cur.trans hp)), wp_modify]
  have hwf := honly.wf fetched_disk h.wf
  have hst := still_fill hwf.acc fun i =>
    if j * blockWords ≤ i ∧ i < (j + 1) * blockWords then
      s.disk (swapBlock n j) (i - j * blockWords) else (s.fetched (swapBlock n j)).mem f i
  refine ⟨hwf.fill _, (h.quiet.trans (honly.quiet fetched_disk)).trans (hst.quiet_same rfl rfl),
    (fetched_disk (k := s)).trans h.disk, fun x hx => h.todo x (List.mem_cons_of_mem j hx),
    fun i hi => ?_⟩
  rw [setPage_mem_self]
  by_cases hij : i.val / blockWords = j
  · have hrange : j * blockWords ≤ i ∧ i < (j + 1) * blockWords := by
      rw [blockWords] at hij ⊢
      omega
    have hoff : i.val - j * blockWords = i % blockWords := by
      rw [blockWords] at hij ⊢
      omega
    rw [if_pos hrange, Kernel.contents, hij, h.disk, hoff]
  · have hrange : ¬(j * blockWords ≤ i ∧ i < (j + 1) * blockWords) := by
      rw [blockWords] at hij ⊢
      omega
    rw [if_neg hrange, honly.mem]
    exact h.done i (List.not_mem_cons_of_ne_of_not_mem hij hi)

theorem readFromSwap_spec (hn : n < numSlots) (hp : k.cur = some p)
    (h : Wf im k (H.hold (.frame f))) :
    wp (readFromSwap f n) k (fun _ k' => Reading im k k' H f n []) E := by
  rw [readFromSwap]
  refine wp_forEach (I := fun js s => Reading im k s H f n js)
    (fun x xs s hs => readBlock_spec hn hp hs) (List.range blocksPerSlot) ?_
  exact ⟨h, .refl k H, rfl, fun j hj => List.mem_range.mp hj,
    fun i hi => absurd (List.mem_range.mpr (block_lt i)) hi⟩

/-! ### `swap_in` -/

/-- An absent entry stays as it is while pages are allocated. -/
theorem Quiet.absent_entry (hq : Quiet X k k' H) (hd : k.Live H d) (hpg : pg < tablePages)
    (hx : ¬X d pg) (he : k.entry d pg = some e) (hp : ¬Present e) : k'.entry d pg = some e := by
  have hg := hq.entry d pg hd hpg hx
  rw [he] at hg
  cases hg' : k'.entry d pg with
  | none =>
    rw [hg'] at hg
    cases hg
  | some e' =>
    rw [hg'] at hg
    cases hg with
    | some hev => rw [hev.absent hp]

/-- The page of `va` in `d` came back from the slot `n`. -/
structure Fetched (im : Image) (k k' : Kernel) (H : Held) (d va n : Nat) : Prop where
  wf : Wf im k' (H.lose n)
  tame : Tame noPage k k' H
  entry : ∃ e', k'.entry d (va / pgSize) = some e' ∧ Present e'
  fetches : fetches k'.trail = fetches k.trail + 1
  fresh : n ∉ H.lost

section Enter
variable (h : Wf im k (H.hold (.frame f))) (hd : k.Live H d) (hshared : d ∉ H.dirs)
  (hq : k.walk d va = some q) (hva : va < kernBase) (hp : ¬Present (k.load q))
  (hs : Swapped (k.load q)) (hn : slotOf (k.load q) = n)
  (hperm : SlotPerm perm (k.load q)) (hcopy : ∀ i : Fin pageWords, k.mem f i = k.contents (.slot n) i)
include h hd hq hva hp hs hn hperm

theorem wf_fetch : Wf im ((k.setPte d va q (mapEntry f perm)).log [.fetch d va]) (H.lose n) := by
  obtain ⟨h32, hpg⟩ := userPages_of_va hva
  have hnames := names_mapEntry h.held_valid hperm.1
  have hacc : Accounted im (k.setPte d va q (mapEntry f perm)) (H.holds (names (k.load q))) :=
    Accounted.setPte (by rw [hnames]; exact h.acc) hd hq h32 hpg
  rw [names_swapped hp hs, hn] at hacc
  have hsane := h.sane.setPte h.acc hd hq h32 (w := mapEntry f perm) (fun m hm => by
    rw [hnames] at hm
    cases hm) (.inl hpg)
  exact ⟨{ hacc.lose with }, { hsane.held rfl rfl with }⟩

omit hp hs hn hperm in
theorem entry_fetch {d' : Nat} (hd' : k.Live H d') (hpg : pg < tablePages) :
    ((k.setPte d va q (mapEntry f perm)).log [.fetch d va]).entry d' pg =
      if d' = d ∧ pg = va / pgSize then some (mapEntry f perm) else k.entry d' pg :=
  entry_setPte h.acc hd hq (userPages_of_va hva).1 hd' (tablePages_div.mp hpg)

include hshared hcopy

theorem tame_fetch : Tame noPage k ((k.setPte d va q (mapEntry f perm)).log [.fetch d va]) H where
  calm := .of_eq rfl rfl rfl rfl rfl rfl rfl rfl
  built d' pg hd' hpg _ := by
    refine .inl ((entry_fetch h hd hq hva ⟨.held, hd'⟩ hpg).trans (if_neg ?_))
    rintro ⟨rfl, _⟩
    exact hshared hd'
  page d' pg hd' hpg _ := by
    obtain ⟨h32, hpg'⟩ := userPages_of_va hva
    by_cases hx : d' = d ∧ pg = va / pgSize
    · obtain ⟨rfl, rfl⟩ := hx
      have hold : k.page d' (va / pgSize) = some ⟨k.contents (.slot n), permOf (k.load q)⟩ := by
        rw [Kernel.page, Kernel.entry_of_walk h32 hq, Option.bind_some, names_swapped hp hs, hn]
        rfl
      have hmem : (k.setPte d' va q (mapEntry f perm)).mem f = k.mem f :=
        mem_store h.acc hd hq (r := .held) List.mem_cons_self (by simp)
      rw [hold, page_of_map hperm.1 h.held_valid ((entry_fetch h hd hq hva hd
        (lt_tablePages hpg')).trans (if_pos ⟨rfl, rfl⟩)), hperm.2, ← funext hcopy]
      show some (UserPage.mk (fun i => (k.setPte d' va q (mapEntry f perm)).mem f i) _) = _
      rw [hmem]
    · exact page_store_of_ne h.acc hd hq h32 hd' hpg hx
  loose hcr3 pg hpg _ := loose_store h.acc hd hq (userPages_of_va hva).1 hcr3 hpg (by simp)
    fun _ _ => .inl hp
  trail := ⟨_, rfl⟩

end Enter

theorem swapIn_spec (hs : Supply im A E) (h : Wf im k H) (hA : A 1 k) (hp : k.cur = some p)
    (hva : va < kernBase) (he : k.entry (k.proc p).pgdir (va / pgSize) = some e)
    (hnp : ¬Present e) (hsw : Swapped e) :
    wp (swapIn im p va (slotOf e)) k
      (fun _ k' => Fetched im k k' H (k.proc p).pgdir va (slotOf e)) E := by
  obtain ⟨h32, hpg⟩ := userPages_of_va hva
  have hdir := h.sane.dir_cur hp
  have hd : k.Live H (k.proc p).pgdir := ⟨_, hdir⟩
  have hshared : (k.proc p).pgdir ∉ H.dirs := fun hm => by
    have := h.acc.exact.unique (r := .dir (.proc p)) (s := .dir .held)
      (a := .frame (k.proc p).pgdir) ⟨_, hdir, rfl⟩ ⟨_, hm, rfl⟩
    cases this
  have href := Accounted.user_ref hd hpg he (names_swapped hnp hsw)
  have hn : slotOf e < numSlots := h.acc.slot_lt href
  rw [swapIn, wp_bind]
  refine wp_mono (wp_and (hs.relieve h hA) (swapOutIfNeeded_logs im k)) (fun _ k₁ hpost => ?_)
    (fun _ _ he => he.1)
  obtain ⟨⟨h₁, hq₁, hA₁⟩, hl₁⟩ := hpost
  rw [wp_bind]
  refine wp_mono (wp_and (hs.alloc h₁ hA₁) (kalloc_logs im k₁)) (fun r k₂ hpost => ?_) (fun _ _ he => he.1)
  obtain ⟨⟨f, hr, h₂, hq₂, _⟩, hl₂⟩ := hpost
  subst hr
  have hq := hq₁.trans hq₂
  have hp₂ := hq.calm.cur.trans hp
  rw [wp_bind]
  refine wp_mono (wp_and (readFromSwap_spec hn hp₂ h₂) (readFromSwap_logs f (slotOf e) k₂)) (fun _ k₃ hpost => ?_)
    (fun _ _ he => he.1)
  obtain ⟨hr, hl₃⟩ := hpost
  have hq' := hq.trans hr.quiet
  have hlong := (hl₁.trans _ _ _ hl₂).trans _ _ _ hl₃
  have hpgdir : (k₃.proc p).pgdir = (k.proc p).pgdir := hq'.calm.pgdir p
  have he₃ := hq'.absent_entry hd (lt_tablePages hpg) id he hnp
  rw [wp_bind, wp_get]
  rw [Kernel.entry_eq_walk h32] at he₃
  obtain ⟨q, hwalk, hload⟩ := Option.map_eq_some_iff.mp he₃
  subst hload
  simp only [hpgdir, hwalk, wp_modify]
  have hd₃ := hq'.calm.live.mpr hd
  have hperm : SlotPerm (k₃.swapSlots (slotOf (k₃.load q))).pagePerm (k₃.load q) :=
    hr.wf.sane.perm _ _ _ _ hd₃ hpg (Kernel.entry_of_walk h32 hwalk) (names_swapped hnp hsw)
  have hcopy (i : Fin pageWords) :
      k₃.mem f i = k₃.contents (.slot (slotOf (k₃.load q))) i := by
    rw [hr.done i (by simp), Kernel.contents, Kernel.contents, hr.disk]
  refine ⟨wf_fetch hr.wf hd₃ hwalk hva hnp hsw rfl hperm, hq'.tame.trans
    (tame_fetch hr.wf hd₃ hshared hwalk hva hnp hsw rfl hperm hcopy), ⟨_,
    (entry_fetch hr.wf hd₃ hwalk hva hd₃ (lt_tablePages hpg)).trans (if_pos ⟨rfl, rfl⟩),
    present_mapEntry f _⟩, ?_, fun hm => ?_⟩
  · rw [← hlong.noFetch.fetches]
    exact List.countP_cons_of_pos rfl
  · exact Ref.noConfusion (h.acc.exact.unique href (s := .lost) ⟨_, hm, rfl⟩)

/-! ### The handler -/

/-- The state after the handler has given up on the process. -/
def Kernel.kill (k : Kernel) (p : Nat) : Kernel := k.setProc p { k.proc p with killed := true }

/-- The handler fetches a page with `PTE_S` and `PTE_U` and without `PTE_P`, and kills the process
otherwise. -/
theorem pgflt_spec (hs : Supply im A E) (h : Wf im k H) (hA : A 1 k) (hp : k.cur = some p)
    (h32 : va < 2 ^ 32) :
    wp (pgflt im va) k
      (fun _ k' => (∃ e, k.entry (k.proc p).pgdir (va / pgSize) = some e ∧ User e ∧ ¬Present e ∧
          Swapped e ∧ Fetched im k k' H (k.proc p).pgdir va (slotOf e)) ∨
        ((∀ e, k.entry (k.proc p).pgdir (va / pgSize) = some e →
          ¬User e ∨ Present e ∨ ¬Swapped e) ∧ k' = k.kill p)) E := by
  rw [pgflt, myproc]
  simp only [wp_bind, wp_get, hp, wp_pure]
  rw [Kernel.entry_eq_walk h32]
  cases hq : k.walk (k.proc p).pgdir va with
  | none =>
    simp only [wp_modify]
    exact .inr ⟨by simp, rfl⟩
  | some q =>
    have he := Kernel.entry_of_walk h32 hq
    simp only [Option.map_some, Option.some.injEq]
    by_cases hup : ¬User (k.load q) ∨ Present (k.load q)
    · rw [if_pos hup, wp_modify]
      refine .inr ⟨?_, rfl⟩
      rintro e rfl
      exact hup.imp_right .inl
    · obtain ⟨hu, hnp⟩ := not_or.mp hup
      rw [if_neg hup]
      by_cases hsw : Swapped (k.load q)
      · have hva : va < kernBase := by
          by_contra hge
          refine (h.sane.upper _ _ _ ⟨_, h.sane.dir_cur hp⟩ ?_ ?_ he).1 hsw
          · rw [kernBase] at hge
            rw [userPages, pgSize]
            omega
          · rw [tablePages, pgSize]
            omega
        rw [if_pos hsw]
        exact wp_mono (swapIn_spec hs h hA hp hva he hnp hsw)
          (fun _ _ hf => .inl ⟨_, rfl, not_not.mp hu, hnp, hsw, hf⟩) (fun _ _ he => he)
      · rw [if_neg hsw, wp_modify]
        refine .inr ⟨?_, rfl⟩
        rintro e rfl
        exact .inr (.inr hsw)

/-! ### Accesses by the kernel -/

/-- The slots `ns` are lost in addition. -/
def Held.losing (H : Held) (ns : List Nat) : Held := { H with lost := ns ++ H.lost }

/-- The slots `ns` were lost on the way, one by each `swap_in`. -/
structure After (im : Image) (X : Nat → Nat → Prop) (k k' : Kernel) (H : Held) (ns : List Nat) :
    Prop where
  wf : Wf im k' (H.losing ns)
  tame : Tame X k k' H
  fetches : fetches k'.trail = ns.length + fetches k.trail
  nodup : H.lost.Nodup → (ns ++ H.lost).Nodup

theorem After.refl (h : Wf im k H) : After im noPage k k H [] :=
  ⟨h, .refl k H, (Nat.zero_add _).symm, fun hnd => hnd⟩

theorem Tame.losing (ns : List Nat) (h : Tame X k k' (H.losing ns)) : Tame X k k' H := by
  have hlive {d : Nat} (hd : k.Live H d) : k.Live (H.losing ns) d := by
    obtain ⟨x, hx⟩ := hd
    refine ⟨x, ?_⟩
    cases x <;> exact hx
  exact ⟨h.calm, h.built, fun d pg hd => h.page d pg (hlive hd), fun hd => h.loose (hlive hd), h.trail⟩

theorem After.trans {ns ns' : List Nat} (h : After im X k₁ k₂ H ns)
    (h' : After im X k₂ k₃ (H.losing ns) ns') : After im X k₁ k₃ H (ns' ++ ns) where
  wf := by
    rw [Held.losing, List.append_assoc]
    exact h'.wf
  tame := h.tame.trans h'.tame.losing
  fetches := by rw [h'.fetches, h.fetches, List.length_append, Nat.add_assoc]
  nodup hnd := by
    rw [List.append_assoc]
    exact h'.nodup (h.nodup hnd)

theorem Fetched.after (h : Fetched im k k' H d va n) : After im noPage k k' H [n] where
  wf := h.wf
  tame := h.tame
  fetches := h.fetches.trans (Nat.add_comm _ _)
  nodup := List.nodup_cons.mpr ∘ And.intro h.fresh

/-- A step that fetches no page. -/
theorem After.longer (h : Wf im k' H) (ht : Tame X k k' H) (hl : Longer Plain k k') : After im X k k' H [] :=
  ⟨h, ht, hl.noFetch.fetches.trans (Nat.zero_add _).symm, fun hnd => hnd⟩

/-- How an access of the kernel to user memory can fail. -/
def Stuck (e : Panic) (_ : Kernel) : Prop := Exhausted e ∨ e = .faultLoop

theorem supply_stuck (im : Image) (p : Nat) : Supply im (Running p) Stuck where
  alloc h hA := wp_mono ((supply_running im p).alloc (n := 0) h hA) (fun _ _ h => h) fun _ _ => .inl
  relieve h hA := wp_mono ((supply_running im p).relieve (n := 0) h hA) (fun _ _ h => h) fun _ _ => .inl
  less := (supply_running im p).less
  keep := (supply_running im p).keep

theorem touch_spec (h : Wf im k H) (hp : k.cur = some p) (h32 : va < 2 ^ 32) :
    wp (touch im va) k (fun _ k' => ∃ ns, After im noPage k k' H ns) Stuck := by
  rw [touch, myproc]
  simp only [wp_bind, wp_get, hp, wp_pure]
  by_cases hr : k.Resident (k.proc p).pgdir va
  · rw [if_neg (not_not_intro hr), wp_pure]
    exact ⟨_, .refl h⟩
  · rw [if_pos hr, wp_bind]
    refine wp_mono (pgflt_spec (supply_stuck im p) h hp hp h32) (fun _ k₁ hk₁ => ?_)
      (fun _ _ he => he)
    rw [wp_bind, wp_get, wp_ite]
    refine ⟨fun _ => (wp_throw _).mpr (.inr rfl), fun hres => ?_⟩
    rw [wp_pure]
    rcases hk₁ with ⟨e, -, -, -, -, hf⟩ | ⟨-, rfl⟩
    · exact ⟨_, hf.after⟩
    · refine absurd (not_not.mp hres) ?_
      rw [show ((k.kill p).proc p).pgdir = (k.proc p).pgdir by rw [Kernel.kill, setProc_self]]
      exact hr

/-- Accesses one after the other. -/
theorem touchAll_spec (vas : List Nat) (h : Wf im k H) (hp : k.cur = some p)
    (hvas : ∀ va ∈ vas, va < 2 ^ 32) :
    wp (forEach vas (touch im)) k (fun _ k' => ∃ ns, After im noPage k k' H ns) Stuck := by
  refine wp_mono (wp_forEach (I := fun vas' s => (∃ ns, After im noPage k s H ns) ∧ vas' ⊆ vas)
    (fun va vas' s hpost => ?_) vas ⟨⟨_, .refl h⟩, fun _ h => h⟩) (fun _ _ h => h.1)
    (fun _ _ he => he)
  obtain ⟨⟨ns, hs⟩, hsub⟩ := hpost
  obtain ⟨hva, hsub⟩ := List.cons_subset.mp hsub
  refine wp_mono (touch_spec hs.wf (hs.tame.calm.cur.trans hp) (hvas va hva)) (fun _ _ hpost => ?_)
    (fun _ _ he => he)
  obtain ⟨_, hs'⟩ := hpost
  exact ⟨⟨_, hs.trans hs'⟩, hsub⟩

theorem touchRange_spec (h : Wf im k H) (hp : k.cur = some p) (hva : va + n ≤ kernBase) :
    wp (touchRange im va n) k (fun _ k' => ∃ ns, After im noPage k k' H ns) Stuck := by
  refine touchAll_spec _ h hp fun a ha => ?_
  obtain ⟨i, hi, rfl⟩ := List.mem_map.mp ha
  have hlt := List.mem_range.mp hi
  have hcount := pageCount_le hva
  rw [pgSize] at *
  omega

end Xv6.Swap
